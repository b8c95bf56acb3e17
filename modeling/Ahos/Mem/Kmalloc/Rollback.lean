import Ahos.Mem.Kmalloc.Sizes
import Ahos.Mem.Pfa.Boundary

/-!
# A failed allocation leaves no trace

When `kmalloc` returns `NULL`, the page frame allocator, the page tables and the lists of the
allocator are those before the call. A big allocation whose metadata cannot be allocated takes page
frames first: the release that follows puts the old cells back, whatever the rest of the pagemap
contains. The states are those that any calls of the kernel reach, with requests of any size and
releases of any pointer.
-/

namespace Ahos

/-! ## Taking page frames back -/

/-- The regions lie in high memory, are page aligned, end below `2 ^ 32` and do not overlap. Nothing
is said about their pagemaps. -/
structure PfaPlaced (pfa : PfaMeta) : Prop where
  high : ∀ r ∈ pfa, 0 < r.nbPages → 0x100000 ≤ r.firstPage
  geometry : Geometry (shape pfa)

theorem PfaPlaced.of_shape {pfa pfa' : PfaMeta} (h : PfaPlaced pfa)
    (hshape : shape pfa' = shape pfa) : PfaPlaced pfa' :=
  ⟨forall_of_shape (P := fun p n => 0 < n → 0x100000 ≤ p) hshape h.high, hshape ▸ h.geometry⟩

theorem PfaPlaced.inHighMemory {pfa : PfaMeta} (h : PfaPlaced pfa) : InHighMemory pfa := by
  intro r hr hpos
  have hend := h.geometry.bounded (r.firstPage, r.nbPages)
    (List.mem_map_of_mem (f := fun r : PfaRegion => (r.firstPage, r.nbPages)) hr) hpos
  exact ⟨h.high r hr hpos, by simp only at hend; omega⟩

/-- **The release of frames that were just taken** restores the pagemap, whatever else it
contains. -/
theorem pfaFree_marked {l r : PfaMeta} {region : PfaRegion} {cells : List PageState} {i n : ℕ}
    (hg : Geometry (shape (l ++ region :: r))) (hn : 0 < n)
    (hfree : FreeCells region.pagemap i n) (hmarked : Marked region.pagemap cells i n) :
    pfaFree (l ++ { region with pagemap := cells } :: r) (region.firstPage + 4096 * i) =
      .ok (l ++ region :: r) := by
  have hbound := hfree.bound hn
  have hplace : (region.firstPage, region.nbPages) ∈ shape (l ++ region :: r) :=
    List.mem_map_of_mem (f := fun r : PfaRegion => (r.firstPage, r.nbPages)) (by simp)
  have hpos : 0 < region.nbPages := by
    simp only [PfaRegion.nbPages]
    omega
  have hend := hg.bounded _ hplace hpos
  have halign := hg.aligned _ hplace hpos
  simp only [PfaRegion.nbPages] at hend halign
  -- the region keeps its place
  have hshape : shape (l ++ { region with pagemap := cells } :: r) = shape (l ++ region :: r) := by
    simp [shape, PfaRegion.nbPages, hmarked.length]
  have hfind : findRegion (l ++ { region with pagemap := cells } :: r)
      (region.firstPage + 4096 * i) = some l.length := by
    refine Geometry.findRegion_eq (hshape ▸ hg) (by simp only; omega) ?_
    simp only [PfaRegion.endAddr, PfaRegion.nbPages, hmarked.length]
    omega
  -- the pagemap before and after the allocation
  have hold : region.pagemap = region.pagemap.take i ++
      (List.replicate n .free ++ region.pagemap.drop (i + n)) := by
    have hrun : (region.pagemap.drop i).take n = List.replicate n .free := by
      apply List.ext_getElem?
      intro k
      rw [List.getElem?_replicate]
      by_cases hk : k < n
      · rw [List.getElem?_take_of_lt hk, List.getElem?_drop, hfree k hk, if_pos hk]
      · rw [if_neg hk, List.getElem?_eq_none (by simp; omega)]
    rw [← hrun, ← List.drop_drop, List.take_append_drop, List.take_append_drop]
  have htake : (region.pagemap.take i).length = i := by
    rw [List.length_take]
    omega
  have hnew : cells = region.pagemap.take i ++
      ((PageBlock.allocated n).cells ++ region.pagemap.drop (i + n)) := by
    have hmarked' : Marked (region.pagemap.take i ++
        (List.replicate n .free ++ region.pagemap.drop (i + n))) cells
        (region.pagemap.take i).length n := by
      rw [htake, ← hold]
      exact hmarked
    exact hmarked'.eq_append hn (by simp)
  have hidx : Word32.sub (region.firstPage + 4096 * i) region.firstPage / 4096 =
      (region.pagemap.take i).length := by
    rw [Word32.sub_of_le (by omega) (by omega), htake]
    omega
  refine pfaFree_eq_ok.mpr ⟨_, { region with pagemap := cells }, region, hfind, by simp, ?_, by simp⟩
  rw [hnew, pfaFreeRegion_cells (PageBlock.allocated_ne_free n) (by omega) hidx,
    PageBlock.pages_allocated hn, ← hold]

/-- What `pfa_alloc` does to placed regions: with `BAD_PAGE` nothing, and otherwise `pfa_free` of the
result takes everything back. -/
theorem PfaPlaced.alloc {pfa pfa' : PfaMeta} (h : PfaPlaced pfa) {n p : ℕ} (hn : 0 < n)
    (halloc : pfaAlloc pfa n = .ok (p, pfa')) :
    shape pfa' = shape pfa ∧ (p = badPage → pfa' = pfa) ∧
      (p ≠ badPage → pfaFree pfa' p = .ok pfa ∧
        0x100000 ≤ p ∧ p % 4096 = 0 ∧ p + 4096 * n < 4294967296) := by
  rcases pfaAlloc_firstFit h.inHighMemory hn with ⟨-, hnone⟩ |
      ⟨l, region, r, i, cells, rfl, -, hfree, -, hmarked, hsome⟩
  · obtain ⟨rfl, rfl⟩ := Prod.mk.inj (Except.ok.inj (halloc.symm.trans hnone))
    exact ⟨rfl, fun _ => rfl, fun hp => absurd rfl hp⟩
  · obtain ⟨rfl, rfl⟩ := Prod.mk.inj (Except.ok.inj (halloc.symm.trans hsome))
    have hbound := hfree.bound hn
    have hpos : 0 < region.nbPages := by
      simp only [PfaRegion.nbPages]
      omega
    have hplace : (region.firstPage, region.nbPages) ∈ shape (l ++ region :: r) :=
      List.mem_map_of_mem (f := fun r : PfaRegion => (r.firstPage, r.nbPages)) (by simp)
    have hlo := h.high region (by simp) hpos
    have hend := h.geometry.bounded _ hplace hpos
    have halign := h.geometry.aligned _ hplace hpos
    simp only [PfaRegion.nbPages] at hend halign
    refine ⟨by simp [shape, PfaRegion.nbPages, hmarked.length], fun hp => ?_, fun _ =>
      ⟨pfaFree_marked h.geometry hn hfree hmarked, by omega, by omega, by omega⟩⟩
    rw [badPage] at hp
    omega

/-! ## The heap in any reachable state -/

/-- The part of the heap that decides how a failed allocation ends: the places of the regions, and
chunks that are not at the address `NULL`. -/
structure HeapPlaced (h : Heap) : Prop where
  pfa : PfaPlaced h.machine.pfa
  chunks : ∀ b ∈ h.ahaBlockList, ∀ i < b.totElts, b.chunkPtr i ≠ 0

/-- The chunks of a new block, of any size that a request is rounded to. -/
theorem chunkPtr_freshBlock {block size i : ℕ} (hlo : 0x100000 ≤ block) (halign : block % 4096 = 0)
    (hend : block + 4096 < 4294967296) (hsize : SmallSize size ∨ size = 0)
    (hi : i < (freshBlock block size).totElts) : (freshBlock block size).chunkPtr i ≠ 0 := by
  rcases hsize with hsize | rfl
  · obtain ⟨hinv, -⟩ := blockInv_new hsize halign hend
    have hptr := hinv.chunkPtr_eq hi
    have hin := hinv.chunk_inside hi
    simp only [freshBlock] at hptr ⊢
    rw [hptr]
    simp only at hin
    omega
  · have hn : nbElts 0 = 4068 := by decide +kernel
    obtain ⟨-, hlo', hhi'⟩ := alignFirstPtr_spec (n := nbElts 0) hend (by omega)
    simp only [AhaBlock.chunkPtr, freshBlock, Word32.add_mul_wrap, Nat.zero_mul, Nat.add_zero]
    rw [Word32.wrap_of_lt (by omega)]
    omega

/-- The chunks of a block stay where they are when their marks change. -/
theorem AhaBlock.chunkPtr_update (b : AhaBlock) (cells : List ChunkType) (frees i : ℕ) :
    AhaBlock.chunkPtr { b with chunkmap := cells, nbFrees := frees } i = b.chunkPtr i := by
  rw [AhaBlock.chunkPtr, AhaBlock.chunkPtr]

/-- A request of at least one byte is rounded to a size of a block, to whole page frames, or to
`0`. -/
theorem roundedSize_cases {n : ℕ} (hn : n < 2 ^ 32) :
    (roundedSize n < 4096 ∧ (SmallSize (roundedSize n) ∨ roundedSize n = 0)) ∨
      4096 ≤ roundedSize n := by
  by_cases hle : n ≤ 2 ^ 31
  · rw [roundedSize_eq hle]
    rcases allocSize_cases hle with ⟨hsmall, hlt⟩ | ⟨-, hge⟩
    · exact .inl ⟨hlt, .inl hsmall⟩
    · exact .inr hge
  · rw [roundedSize_overflow (by omega) hn]
    exact .inl ⟨by omega, .inr rfl⟩

section Steps

variable {h h' : Heap} {p : ℕ}

theorem PfaPlaced.keeps {pfa : PfaMeta} (hpfa : PfaPlaced pfa) (n : ℕ) :
    ∃ p pfa', pfaAlloc pfa n = .ok (p, pfa') ∧ PfaPlaced pfa' := by
  by_cases hn : n = 0
  · exact ⟨badPage, pfa, by rw [pfaAlloc, if_pos hn]; rfl, hpfa⟩
  · have hpos : 0 < n := by omega
    rcases pfaAlloc_firstFit hpfa.inHighMemory hpos with ⟨-, halloc⟩ |
        ⟨l, region, r, i, cells, -, -, -, -, -, halloc⟩
    · exact ⟨_, _, halloc, hpfa⟩
    · exact ⟨_, _, halloc, hpfa.of_shape (hpfa.alloc hpos halloc).1⟩

/-- Taking a chunk does not fail, and does not touch the machine. -/
theorem HeapPlaced.takeChunk (hh : HeapPlaced h) {i : ℕ} (htake : takeChunk h i = .ok (p, h')) :
    HeapPlaced h' ∧ p ≠ 0 := by
  obtain ⟨b, chunk, hget, hlt, rfl, rfl⟩ := takeChunk_cases htake
  have hb := hh.chunks b (List.mem_of_getElem? hget)
  refine ⟨⟨hh.pfa, ?_⟩, hb chunk hlt⟩
  refine forall_mem_set (P := fun b => ∀ i < b.totElts, b.chunkPtr i ≠ 0) hh.chunks ?_
  intro j hj
  rw [AhaBlock.chunkPtr_update]
  exact hb j hj

/-- A small allocation that fails changes nothing. -/
theorem HeapPlaced.smallAlloc (hh : HeapPlaced h) {size : ℕ} (hsize : SmallSize size ∨ size = 0)
    (halloc : smallAlloc h size = .ok (p, h')) : HeapPlaced h' ∧ (p = 0 → h' = h) := by
  simp only [Ahos.smallAlloc] at halloc
  split at halloc
  · obtain ⟨hplaced, hne⟩ := hh.takeChunk halloc
    exact ⟨hplaced, fun hp => absurd hp hne⟩
  · rw [Run.bind_eq_ok] at halloc
    obtain ⟨⟨block, h₁⟩, hnew, halloc⟩ := halloc
    obtain ⟨pfa, hpfa, ⟨rfl, rfl⟩ | ⟨hne, machine, hmap, rfl⟩⟩ := newBlock_cases hnew
    · obtain ⟨rfl, rfl⟩ := Prod.mk.inj (Except.ok.inj halloc)
      obtain rfl := (hh.pfa.alloc (by omega) hpfa).2.1 rfl
      exact ⟨hh, fun _ => rfl⟩
    · obtain ⟨hshape, -, hback⟩ := hh.pfa.alloc (by omega) hpfa
      obtain ⟨-, hlo, halign, hend⟩ := hback hne
      have hkeep : PfaPlaced machine.pfa := (mapIdentity_keeps
        (s := { h.machine with pfa := pfa }) PfaPlaced.keeps (hh.pfa.of_shape hshape) block).1
          machine hmap
      have hfresh : HeapPlaced
          ⟨machine, freshBlock block size :: h.ahaBlockList, h.ahaBigList⟩ := by
        refine ⟨hkeep, ?_⟩
        rintro b (_ | ⟨_, hb⟩) i hi
        · exact chunkPtr_freshBlock hlo halign (by omega) hsize hi
        · exact hh.chunks b hb i hi
      simp only [if_neg hne] at halloc
      obtain ⟨hplaced, hp⟩ := hfresh.takeChunk halloc
      exact ⟨hplaced, fun h0 => absurd h0 hp⟩

/-- A big allocation that fails gives its page frames back. -/
theorem HeapPlaced.bigAlloc (hh : HeapPlaced h) {size : ℕ} (hsize : 4096 ≤ size)
    (halloc : bigAlloc h size = .ok (p, h')) : HeapPlaced h' ∧ (p = 0 → h' = h) := by
  have hpages : 0 < size / 4096 := Nat.div_pos hsize (by omega)
  simp only [Ahos.bigAlloc, Run.bind_eq_ok] at halloc
  obtain ⟨⟨head, pfa⟩, hpfa, halloc⟩ := halloc
  obtain ⟨hshape, hbad, hback⟩ := hh.pfa.alloc hpages hpfa
  simp only at halloc
  split at halloc
  · next hp =>
    obtain ⟨rfl, rfl⟩ := Prod.mk.inj (Except.ok.inj halloc)
    obtain rfl := hbad hp
    exact ⟨hh, fun _ => rfl⟩
  · next hne =>
    obtain ⟨hfree, -⟩ := hback hne
    rw [Run.bind_eq_ok] at halloc
    obtain ⟨⟨metaPtr, h₁⟩, hmeta, halloc⟩ := halloc
    have htaken : HeapPlaced { h with machine := { h.machine with pfa := pfa } } :=
      ⟨hh.pfa.of_shape hshape, hh.chunks⟩
    obtain ⟨hplaced, hsame⟩ := htaken.smallAlloc
      (.inl ⟨4, by omega, by omega, roundedSize_bigMeta⟩) hmeta
    simp only at halloc
    split at halloc
    · next hzero =>
      -- the release restores the pagemap before the call
      obtain rfl := hsame hzero
      simp only [hfree, Run.ok_bind] at halloc
      obtain ⟨-, rfl⟩ := Prod.mk.inj (Except.ok.inj halloc)
      exact ⟨hh, fun _ => rfl⟩
    · rw [Run.bind_eq_ok] at halloc
      obtain ⟨machine, hmap, halloc⟩ := halloc
      obtain ⟨rfl, rfl⟩ := Prod.mk.inj (Except.ok.inj halloc)
      exact ⟨⟨(mapFrames_keeps PfaPlaced.keeps hplaced.pfa _ _).1 machine hmap, hplaced.chunks⟩,
        fun h0 => absurd h0 hne⟩

/-- **`kmalloc`** keeps the places, and a result `NULL` means that nothing changed. -/
theorem HeapPlaced.kmalloc (hh : HeapPlaced h) {size : ℕ} (hsize : size < 2 ^ 32)
    (halloc : kmalloc h size = .ok (p, h')) : HeapPlaced h' ∧ (p = 0 → h' = h) := by
  unfold Ahos.kmalloc at halloc
  split at halloc
  · obtain ⟨rfl, rfl⟩ := Prod.mk.inj (Except.ok.inj halloc)
    exact ⟨hh, fun _ => rfl⟩
  · split at halloc
    · next hbig => exact hh.bigAlloc hbig halloc
    · next hsmall =>
      rcases roundedSize_cases hsize with ⟨-, hcases⟩ | hbig
      · exact hh.smallAlloc hcases halloc
      · exact absurd hbig hsmall

/-- The release of a chunk changes its cell and its counter only. -/
theorem HeapPlaced.releaseChunk (hh : HeapPlaced h) {i ptr : ℕ}
    (hfree : releaseChunk h i ptr = .ok h') : HeapPlaced h' := by
  simp only [Ahos.releaseChunk, Run.bind_eq_ok, readCell_eq_ok] at hfree
  obtain ⟨b, hget, hfree⟩ := hfree
  split at hfree
  · cases hfree
  · rw [Run.bind_eq_ok] at hfree
    obtain ⟨state, -, hfree⟩ := hfree
    split at hfree
    · cases hfree
    · obtain rfl := Except.ok.inj hfree
      refine ⟨hh.pfa, forall_mem_set (P := fun b => ∀ i < b.totElts, b.chunkPtr i ≠ 0) hh.chunks ?_⟩
      intro j hj
      rw [AhaBlock.chunkPtr_update]
      exact hh.chunks b (List.mem_of_getElem? hget) j hj

/-- **`kfree`** of any pointer keeps the places. -/
theorem HeapPlaced.kfree (hh : HeapPlaced h) {ptr : ℕ} (hfree : kfree h ptr = .ok h') :
    HeapPlaced h' := by
  -- the metadata of a big allocation is released with one entry less in the list
  induction hn : h.ahaBigList.length using Nat.strong_induction_on generalizing h ptr with
  | _ n ih =>
    rw [Ahos.kfree] at hfree
    split at hfree
    · cases hfree
    · split at hfree
      · exact hh.releaseChunk hfree
      · split at hfree
        · next i hfind =>
          obtain ⟨hi, -⟩ := List.findIdx?_eq_some_iff_getElem.mp hfind
          rw [bigFree_eq (List.getElem?_eq_getElem hi)] at hfree
          simp only [Run.bind_eq_ok] at hfree
          obtain ⟨machine, hunmap, pfa, hpfa, hfree⟩ := hfree
          have hsame : machine.pfa = h.machine.pfa := (unmapFrames_pfa _ _ _).1 machine hunmap
          have hplaced : PfaPlaced pfa :=
            (hsame ▸ hh.pfa).of_shape (shape_pfaFree hpfa)
          refine ih _ ?_ (h := ⟨{ machine with pfa := pfa }, h.ahaBlockList,
            h.ahaBigList.eraseIdx i⟩) ⟨hplaced, hh.chunks⟩ hfree rfl
          simp only [List.length_eraseIdx, if_pos hi]
          omega
        · cases hfree

end Steps

/-! ## Runs -/

/-- A call that changes the state of the allocator, the page frames or the page tables. -/
inductive KernelCall where
  | kmalloc (size : ℕ)
  | kfree (ptr : ℕ)
  | pfaAlloc (nbPages : ℕ)
  | pfaFree (pgf : ℕ)
  | mapPage (physAddr virtAddr flags : ℕ)
  | unmapPage (virtAddr : ℕ)
deriving DecidableEq, Repr

/-- The size of a request is a 32-bit word. -/
def KernelCall.Word : KernelCall → Prop
  | .kmalloc size => size < 2 ^ 32
  | _ => True

/-- One call. -/
def Heap.call (h : Heap) : KernelCall → Outcome Heap
  | .kmalloc size => do
    let (_, h) ← Ahos.kmalloc h size
    return h
  | .kfree ptr => Ahos.kfree h ptr
  | .pfaAlloc nbPages => do
    let (_, pfa) ← Ahos.pfaAlloc h.machine.pfa nbPages
    return { h with machine := { h.machine with pfa := pfa } }
  | .pfaFree pgf => do
    let pfa ← Ahos.pfaFree h.machine.pfa pgf
    return { h with machine := { h.machine with pfa := pfa } }
  | .mapPage physAddr virtAddr flags => do
    let (_, machine) ← Ahos.mapPage h.machine physAddr virtAddr flags
    return { h with machine := machine }
  | .unmapPage virtAddr => do
    let (_, machine) ← Ahos.unmapPage h.machine virtAddr
    return { h with machine := machine }

/-- Every call keeps the places. -/
theorem HeapPlaced.call {h h' : Heap} (hh : HeapPlaced h) {op : KernelCall} (hop : op.Word)
    (hcall : h.call op = .ok h') : HeapPlaced h' := by
  cases op with
  | kmalloc size =>
    simp only [Heap.call, Run.bind_eq_ok] at hcall
    obtain ⟨⟨p, h₁⟩, halloc, hret⟩ := hcall
    obtain rfl := Except.ok.inj hret
    exact (hh.kmalloc hop halloc).1
  | kfree ptr => exact hh.kfree hcall
  | pfaAlloc n =>
    simp only [Heap.call, Run.bind_eq_ok] at hcall
    obtain ⟨⟨p, pfa⟩, halloc, hret⟩ := hcall
    obtain rfl := Except.ok.inj hret
    obtain ⟨q, pfa', halloc', hplaced⟩ := hh.pfa.keeps n
    obtain ⟨-, rfl⟩ := Prod.mk.inj (Except.ok.inj (halloc.symm.trans halloc'))
    exact ⟨hplaced, hh.chunks⟩
  | pfaFree pgf =>
    simp only [Heap.call, Run.bind_eq_ok] at hcall
    obtain ⟨pfa, hfree, hret⟩ := hcall
    obtain rfl := Except.ok.inj hret
    exact ⟨hh.pfa.of_shape (shape_pfaFree hfree), hh.chunks⟩
  | mapPage physAddr virtAddr flags =>
    simp only [Heap.call, Run.bind_eq_ok] at hcall
    obtain ⟨⟨ret, machine⟩, hmap, hcall⟩ := hcall
    obtain rfl := Except.ok.inj hcall
    exact ⟨(mapPage_keeps PfaPlaced.keeps hh.pfa _ _ _).1 _ hmap, hh.chunks⟩
  | unmapPage virtAddr =>
    simp only [Heap.call, Run.bind_eq_ok] at hcall
    obtain ⟨⟨ret, machine⟩, hunmap, hcall⟩ := hcall
    obtain rfl := Except.ok.inj hcall
    have hsame : machine.pfa = h.machine.pfa := (unmapPage_pfa _ _).1 _ hunmap
    exact ⟨hsame ▸ hh.pfa, hh.chunks⟩

/-- **A failed `kmalloc` leaves no trace**, in every state that calls of the kernel reach from an
empty heap over regions in high memory, whatever its pagemaps and page tables contain: the pagemaps,
the page tables, the blocks and both lists are those before the call. -/
theorem kmalloc_failure_no_trace {machine : Machine} (hplaced : PfaPlaced machine.pfa)
    {ops : List KernelCall} (hops : ∀ op ∈ ops, op.Word) {h : Heap}
    (hrun : Run.run Heap.call ⟨machine, [], []⟩ ops = .ok h) {n : ℕ} (hn : n < 2 ^ 32) {h' : Heap}
    (halloc : kmalloc h n = .ok (0, h')) : h' = h := by
  have hh : HeapPlaced h := Run.run_invariant (fun _ op _ hop hs => hs.call (hops op hop))
    (s := ⟨machine, [], []⟩) ⟨hplaced, by simp⟩ hrun
  exact (hh.kmalloc hn halloc).2 rfl

/-- Two page frames, and a big allocation of both: the metadata cannot be allocated any more, and the
frames are free again. -/
theorem kmalloc_failure_no_trace_two_frames :
    ∃ h', kmalloc ⟨{ heapMachine with pfa := [⟨0x200000, [.free, .free]⟩] }, [], []⟩ 8192 =
        .ok (0, h') ∧
      h' = ⟨{ heapMachine with pfa := [⟨0x200000, [.free, .free]⟩] }, [], []⟩ := by
  have hplaced : PfaPlaced [⟨0x200000, [.free, .free]⟩] :=
    ⟨by simp, by simp [shape], by simp [shape, PfaRegion.nbPages], by simp [shape]⟩
  obtain ⟨p, h', halloc, rfl⟩ := exists_of_map_fst (p := 0) (x := kmalloc
    ⟨{ heapMachine with pfa := [⟨0x200000, [.free, .free]⟩] }, [], []⟩ 8192) (by decide +kernel)
  exact ⟨h', halloc, kmalloc_failure_no_trace hplaced (List.forall_mem_nil _) (Run.run_nil _ _)
    (by decide) halloc⟩

end Ahos
