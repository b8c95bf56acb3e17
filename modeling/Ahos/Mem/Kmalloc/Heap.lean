import Ahos.Mem.Kmalloc.Blocks
import Ahos.Mem.Pfa.Runs
import Mathlib.Data.List.Perm.Basic

/-!
# What `kmalloc` and `kfree` do to the heap

The allocator takes page frames, maps them, unmaps them and returns them. What it needs
of these four operations is the interface `FrameKeeper`: a property of the machine that
knows which frames are mapped for the allocator and which are taken but not mapped. Over
any such property, `kmalloc` and `kfree` keep the invariant of the heap: every area in use
is a chunk of a block or a run of page frames, and the areas in use are the outstanding
allocations and the metadata of the big ones.
-/

namespace Ahos

/-! ## Frames -/

/-- What the allocator relies on. The property `frames s mapped pending` of a machine says that
the allocator owns the frames `mapped`, which are mapped, and `pending`, which are not. The
errors `bad` are those that the page tables may cause. -/
structure FrameKeeper (bad : Halt → Prop)
    (frames : Machine → List (ℕ × ℕ) → List (ℕ × ℕ) → Prop) : Prop where
  owned : ∀ {s mapped pending}, frames s mapped pending →
    ∃ others, PfaInv s.pfa (pending ++ (mapped ++ others))
  alloc : ∀ {s mapped pending}, frames s mapped pending → ∀ n, ∃ p pfa,
    pfaAlloc s.pfa n = .ok (p, pfa) ∧
      frames { s with pfa := pfa } mapped (if p = badPage then pending else (p, n) :: pending)
  map : ∀ {s mapped pending p n}, frames s mapped ((p, n) :: pending) →
    Run.Returns bad (mapFrames s p n) fun s' => frames s' ((p, n) :: mapped) pending
  unmap : ∀ {s mapped pending p n}, frames s ((p, n) :: mapped) pending →
    Run.Returns bad (unmapFrames s p n) fun s' => frames s' mapped ((p, n) :: pending)
  free : ∀ {s mapped pending p n}, frames s mapped ((p, n) :: pending) → ∃ pfa,
    pfaFree s.pfa p = .ok pfa ∧ frames { s with pfa := pfa } mapped pending
  perm : ∀ {s mapped mapped' pending}, mapped.Perm mapped' → frames s mapped pending →
    frames s mapped' pending

/-- One page is a run of one frame. -/
theorem mapFrames_one {s : Machine} {p : ℕ} (h : p < 4294967296) :
    mapFrames s p 1 = mapIdentity s p notImplemented := by
  have haddr : Word32.add p (Word32.mul 0 4096) = p := by
    rw [Word32.add_mul_wrap, Word32.wrap_of_lt (by omega)]
    omega
  rw [mapFrames, List.range_one, List.foldlM_cons, haddr]
  exact bind_pure _

/-! ## The invariant -/

namespace Heap

/-- The page frames of the blocks. -/
def blockFrames (h : Heap) : List (ℕ × ℕ) := h.ahaBlockList.map fun b => (b.addr, 1)

/-- The page frames of the big allocations. -/
def bigFrames (h : Heap) : List (ℕ × ℕ) := h.ahaBigList.map fun m => (m.ptr, m.size / 4096)

/-- The areas of all chunks in use. -/
def usedAreas (h : Heap) : List (ℕ × ℕ) := h.ahaBlockList.flatMap AhaBlock.usedAreas

/-- The areas of the big allocations. -/
def bigAreas (h : Heap) : List (ℕ × ℕ) := h.ahaBigList.map fun m => (m.ptr, m.size)

/-- The areas of the metadata of the big allocations. -/
def metaAreas (h : Heap) : List (ℕ × ℕ) := h.ahaBigList.map fun m => (m.addr, 16)

end Heap

/-- The heap with the outstanding areas `out` and the frames `pending` that are taken but not in
use yet. -/
structure HeapInv (frames : Machine → List (ℕ × ℕ) → List (ℕ × ℕ) → Prop) (h : Heap)
    (out pending : List (ℕ × ℕ)) : Prop where
  frames : frames h.machine (h.blockFrames ++ h.bigFrames) pending
  blocks : ∀ b ∈ h.ahaBlockList, BlockInv b
  bigs : ∀ m ∈ h.ahaBigList, BigSize m.size
  areas : (h.usedAreas ++ h.bigAreas).Perm (h.metaAreas ++ out)

/-! ## Chunks -/

/-- Changing one element of a list changes one part of the flattened list. -/
private theorem flatMap_set {α β : Type} {f : α → List β} {l : List α} {i : ℕ} {a : α}
    (h : l[i]? = some a) :
    ∃ rest, (l.flatMap f).Perm (f a ++ rest) ∧
      ∀ b, ((l.set i b).flatMap f).Perm (f b ++ rest) := by
  obtain ⟨hi, rfl⟩ := List.getElem?_eq_some_iff.mp h
  have hl : l = l.take i ++ l[i] :: l.drop (i + 1) := by simp
  have hperm : ∀ x, ((l.take i ++ x :: l.drop (i + 1)).flatMap f).Perm
      (f x ++ ((l.take i).flatMap f ++ (l.drop (i + 1)).flatMap f)) := by
    intro x
    rw [List.flatMap_append, List.flatMap_cons]
    exact List.perm_append_comm_assoc ..
  refine ⟨(l.take i).flatMap f ++ (l.drop (i + 1)).flatMap f, ?_, fun b => ?_⟩
  · conv_lhs => rw [hl]
    exact hperm _
  · rw [List.set_eq_take_append_cons_drop, if_pos hi]
    exact hperm b

section Chunks

variable {h : Heap} {i : ℕ} {b : AhaBlock}

theorem forall_mem_set {P : AhaBlock → Prop} {blocks : List AhaBlock} {b' : AhaBlock}
    (hall : ∀ b ∈ blocks, P b) (hb' : P b') : ∀ b ∈ blocks.set i b', P b := by
  intro x hx
  rcases List.mem_or_eq_of_mem_set hx with hx | rfl
  · exact hall x hx
  · exact hb'

theorem map_addr_set {blocks : List AhaBlock} {b' : AhaBlock} (hget : blocks[i]? = some b)
    (haddr : b'.addr = b.addr) :
    (blocks.set i b').map (fun b => (b.addr, 1)) = blocks.map fun b => (b.addr, 1) := by
  obtain ⟨hi, rfl⟩ := List.getElem?_eq_some_iff.mp hget
  rw [List.map_set, haddr, ← List.getElem_map (fun b : AhaBlock => (b.addr, 1)) (h := by simpa),
    List.set_getElem_self]

/-- **Taking a chunk** of a block that is not full. -/
theorem takeChunk_spec (hblocks : ∀ b ∈ h.ahaBlockList, BlockInv b)
    (hget : h.ahaBlockList[i]? = some b) (hfrees : 0 < b.nbFrees) :
    ∃ p blocks, takeChunk h i = .ok (p, { h with ahaBlockList := blocks }) ∧ p ≠ 0 ∧
      (∀ b ∈ blocks, BlockInv b) ∧
      blocks.map (fun b => (b.addr, 1)) = h.blockFrames ∧
      (blocks.flatMap AhaBlock.usedAreas).Perm ((p, b.eltSize) :: h.usedAreas) := by
  have hb := hblocks b (List.mem_of_getElem? hget)
  obtain ⟨j, hj, hfind, hfree⟩ := hb.findFree_spec hfrees
  obtain ⟨hb', hperm⟩ := hb.take hj hfree
  obtain ⟨rest, hold, hnew⟩ := flatMap_set (f := AhaBlock.usedAreas) hget
  have hinside := hb.chunk_inside hj
  refine ⟨b.firstPtr + b.eltSize * j, _, ?_, by omega, forall_mem_set hblocks hb',
    map_addr_set hget rfl, ?_⟩
  · simp only [takeChunk, readCell, hget, Run.ok_bind, hfind, hb.chunkPtr_eq hj]
    rfl
  · exact (hnew _).trans ((hperm.append_right rest).trans (hold.symm.cons _))

/-- The chunks of a block have different addresses. -/
theorem BlockInv.find_chunk (hb : BlockInv b) {j : ℕ} (hj : j < b.totElts) :
    (List.range b.totElts).find? (fun chunk =>
      b.chunkPtr chunk = b.firstPtr + b.eltSize * j) = some j := by
  have hsize := hb.size.bounds
  rw [List.find?_range_eq_some]
  refine ⟨by simp [hb.chunkPtr_eq hj], List.mem_range.mpr hj, fun k hk => ?_⟩
  have hlt : b.eltSize * k < b.eltSize * j := (Nat.mul_lt_mul_left (by omega)).mpr hk
  simp only [hb.chunkPtr_eq (hk.trans hj), Bool.not_eq_true', decide_eq_false_iff_not]
  omega

/-- **Releasing a chunk** that is in use. -/
theorem releaseChunk_spec (hblocks : ∀ b ∈ h.ahaBlockList, BlockInv b)
    (hget : h.ahaBlockList[i]? = some b) {j : ℕ} (hj : j < b.totElts)
    (hused : b.chunkmap[j]? = some .used) :
    ∃ blocks, releaseChunk h i (b.firstPtr + b.eltSize * j) =
        .ok { h with ahaBlockList := blocks } ∧
      (∀ b ∈ blocks, BlockInv b) ∧
      blocks.map (fun b => (b.addr, 1)) = h.blockFrames ∧
      h.usedAreas.Perm (b.chunkArea j :: blocks.flatMap AhaBlock.usedAreas) := by
  have hb := hblocks b (List.mem_of_getElem? hget)
  obtain ⟨hb', hperm⟩ := hb.release hj hused
  obtain ⟨rest, hold, hnew⟩ := flatMap_set (f := AhaBlock.usedAreas) hget
  refine ⟨_, ?_, forall_mem_set hblocks hb', map_addr_set hget rfl, ?_⟩
  · simp only [releaseChunk, readCell, hget, Run.ok_bind, hb.find_chunk hj, hused]
    rfl
  · exact hold.trans ((hperm.append_right rest).trans ((hnew _).symm.cons _))

end Chunks

/-! ## Allocation -/

section Keeper

variable {bad : Halt → Prop} {frames : Machine → List (ℕ × ℕ) → List (ℕ × ℕ) → Prop}
  {h : Heap} {out pending : List (ℕ × ℕ)}

/-- `new_block` either finds no frame or puts a block without used chunks in front of the list. -/
theorem newBlock_spec (hk : FrameKeeper bad frames) (hinv : HeapInv frames h out pending)
    {size : ℕ} (hsize : SmallSize size) :
    Run.Returns bad (newBlock h size) fun r =>
      HeapInv frames r.2 out pending ∧ r.2.ahaBigList = h.ahaBigList ∧
        (r.1 ≠ 0 → ∃ b, r.2.ahaBlockList[0]? = some b ∧ b.eltSize = size ∧ 0 < b.nbFrees) := by
  obtain ⟨hpos, -⟩ := nbElts_spec hsize
  obtain ⟨p, pfa, halloc, hframes⟩ := hk.alloc hinv.frames 1
  simp only [newBlock, if_neg (show nbElts size ≠ 0 by omega), halloc, Run.ok_bind]
  by_cases hp : p = 0
  · rw [if_pos (show p = badPage from hp)] at hframes
    rw [if_pos hp]
    exact Run.returns_ok ⟨⟨hframes, hinv.blocks, hinv.bigs, hinv.areas⟩, rfl, by simp⟩
  · rw [if_neg (show p ≠ badPage from hp)] at hframes
    obtain ⟨others, howned⟩ := hk.owned hframes
    obtain ⟨-, -, halign, r, -, -, hend, hbelow⟩ := howned.bounds (p := p) (n := 1) (by simp)
    obtain ⟨hblock, hareas⟩ := blockInv_new hsize halign (by omega)
    rw [if_neg hp, ← mapFrames_one (by omega)]
    refine (hk.map hframes).bind fun s hs => Run.returns_ok ⟨⟨?_, ?_, hinv.bigs, ?_⟩, rfl, ?_⟩
    · exact hs
    · simp only [List.mem_cons, forall_eq_or_imp]
      exact ⟨hblock, hinv.blocks⟩
    · simp only [Heap.usedAreas, List.flatMap_cons, hareas, List.nil_append]
      exact hinv.areas
    · exact fun _ => ⟨_, rfl, rfl, hpos⟩

/-- `kmalloc` for a small size returns a chunk of that size, or `NULL`. -/
theorem smallAlloc_spec (hk : FrameKeeper bad frames) (hinv : HeapInv frames h out pending)
    {size : ℕ} (hsize : SmallSize size) :
    Run.Returns bad (smallAlloc h size) fun r => r.2.ahaBigList = h.ahaBigList ∧
      HeapInv frames r.2 (if r.1 = 0 then out else (r.1, size) :: out) pending := by
  -- the chunk that is taken becomes outstanding
  have htake : ∀ {h : Heap} {i b}, HeapInv frames h out pending →
      h.ahaBlockList[i]? = some b → b.eltSize = size → 0 < b.nbFrees →
      Run.Returns bad (takeChunk h i) fun r => r.2.ahaBigList = h.ahaBigList ∧
        HeapInv frames r.2 (if r.1 = 0 then out else (r.1, size) :: out) pending := by
    intro h i b hinv hget heq hfrees
    obtain ⟨p, blocks, htake, hp, hblocks, haddrs, hperm⟩ := takeChunk_spec hinv.blocks hget hfrees
    rw [htake]
    refine Run.returns_ok ⟨rfl, ?_⟩
    rw [if_neg hp, ← heq]
    refine ⟨?_, hblocks, hinv.bigs, ?_⟩
    · have hfr := hinv.frames
      rw [← haddrs] at hfr
      exact hfr
    · have := hinv.areas.cons (p, b.eltSize)
      exact (hperm.append_right _).trans (this.trans List.perm_middle.symm)
  unfold smallAlloc
  cases hfind : findNonFullBlock h.ahaBlockList size with
  | some i =>
    obtain ⟨hi, hp, -⟩ := List.findIdx?_eq_some_iff_getElem.mp hfind
    obtain ⟨heq, hfrees⟩ := by simpa using hp
    exact htake hinv (List.getElem?_eq_getElem hi) heq hfrees
  | none =>
    refine (newBlock_spec hk hinv hsize).bind ?_
    rintro ⟨block, h'⟩ ⟨hinv', hbig, hnew⟩
    by_cases hblock : block = 0
    · simp only [hblock, if_true]
      exact Run.returns_ok ⟨hbig, by simpa using hinv'⟩
    · obtain ⟨b, hget, heq, hfrees⟩ := hnew hblock
      simp only [if_neg hblock]
      exact (htake hinv' hget heq hfrees).imp fun r hr => ⟨hr.1.trans hbig, hr.2⟩

/-- `big_alloc` returns page frames of that size, or `NULL`. -/
theorem bigAlloc_spec (hk : FrameKeeper bad frames) (hinv : HeapInv frames h out [])
    {size : ℕ} (hsize : BigSize size) :
    Run.Returns bad (bigAlloc h size) fun r =>
      HeapInv frames r.2 (if r.1 = 0 then out else (r.1, size) :: out) [] := by
  obtain ⟨p, pfa, halloc, hframes⟩ := hk.alloc hinv.frames (size / 4096)
  simp only [bigAlloc, halloc, Run.ok_bind]
  by_cases hp : p = badPage
  · rw [if_pos hp] at hframes
    rw [if_pos hp]
    exact Run.returns_ok ⟨hframes, hinv.blocks, hinv.bigs, hinv.areas⟩
  · rw [if_neg hp] at hframes
    rw [if_neg hp, roundedSize_bigMeta]
    have hinv₁ : HeapInv frames { h with machine := { h.machine with pfa := pfa } } out
        [(p, size / 4096)] := ⟨hframes, hinv.blocks, hinv.bigs, hinv.areas⟩
    refine (smallAlloc_spec hk hinv₁ ⟨4, by omega, by omega, rfl⟩).bind ?_
    rintro ⟨metaPtr, h'⟩ ⟨hbig, hinv'⟩
    by_cases hmeta : metaPtr = 0
    · -- there is no memory for the metadata, and the page frames go back
      rw [if_pos hmeta] at hinv' ⊢
      obtain ⟨pfa', hfree, hframes'⟩ := hk.free hinv'.frames
      rw [hfree, Run.ok_bind]
      exact Run.returns_ok ⟨hframes', hinv'.blocks, hinv'.bigs, hinv'.areas⟩
    · rw [if_neg hmeta] at hinv' ⊢
      refine (hk.map hinv'.frames).bind fun s hs => Run.returns_ok ?_
      simp only [if_neg (show p ≠ 0 from hp)]
      refine ⟨hk.perm List.perm_middle.symm hs, hinv'.blocks, ?_, ?_⟩
      · simp only [List.mem_cons, forall_eq_or_imp]
        exact ⟨hsize, hinv'.bigs⟩
      · have hmid : (h'.usedAreas ++ (p, size) :: h'.bigAreas).Perm
            ((p, size) :: (h'.usedAreas ++ h'.bigAreas)) := List.perm_middle
        have hout : (h'.metaAreas ++ (metaPtr, 16) :: out).Perm
            ((metaPtr, 16) :: (h'.metaAreas ++ out)) := List.perm_middle
        have hswap := (hinv'.areas.trans hout).cons (p, size)
        exact hmid.trans (hswap.trans ((List.Perm.swap ..).trans
          (List.perm_middle.symm.cons (metaPtr, 16))))

/-- **`kmalloc` keeps the heap**: a result other than `NULL` is an area of the least power of two
that holds the request. -/
theorem kmalloc_spec (hk : FrameKeeper bad frames) (hinv : HeapInv frames h out []) {n : ℕ}
    (hn : n ≤ 2 ^ 31) :
    Run.Returns bad (kmalloc h n) fun r =>
      HeapInv frames r.2 (if r.1 = 0 then out else (r.1, allocSize n) :: out) [] := by
  unfold kmalloc
  rw [roundedSize_eq hn]
  split_ifs with hzero hbig
  · exact Run.returns_ok hinv
  · rcases allocSize_cases hn with ⟨-, hlt⟩ | ⟨hsize, -⟩
    · omega
    · exact bigAlloc_spec hk hinv hsize
  · rcases allocSize_cases hn with ⟨hsize, -⟩ | ⟨-, hle⟩
    · exact (smallAlloc_spec hk hinv hsize).imp fun r hr => hr.2
    · omega

/-! ## Release -/

/-- The frames of the allocator are apart. -/
theorem HeapInv.pairwise (hk : FrameKeeper bad frames) (hinv : HeapInv frames h out pending) :
    (h.blockFrames ++ h.bigFrames).Pairwise Apart := by
  obtain ⟨others, howned⟩ := hk.owned hinv.frames
  exact (List.pairwise_append.mp (List.pairwise_append.mp howned.pairwise).2.1).1

/-- The first block whose chunks reach the address of a chunk is the block of the chunk. -/
theorem findBlock_chunk (hk : FrameKeeper bad frames) (hinv : HeapInv frames h out pending)
    {i j : ℕ} {b : AhaBlock} (hget : h.ahaBlockList[i]? = some b) (hj : j < b.totElts) :
    h.ahaBlockList.findIdx? (fun block => b.firstPtr + b.eltSize * j ≥ block.firstPtr ∧
      b.firstPtr + b.eltSize * j < Word32.add block.addr 4096) = some i := by
  obtain ⟨hi, rfl⟩ := List.getElem?_eq_some_iff.mp hget
  have hend : ∀ b ∈ h.ahaBlockList, Word32.add b.addr 4096 = b.addr + 4096 := by
    intro b hb
    have := (hinv.blocks b hb).below
    exact Word32.add_of_lt (by omega)
  have hb := hinv.blocks _ (List.getElem_mem hi)
  have hin := hb.chunk_inside hj
  have hsize := hb.size.bounds
  rw [List.findIdx?_eq_some_iff_getElem]
  refine ⟨hi, ?_, fun k hk' => ?_⟩
  · rw [decide_eq_true_eq, hend _ (List.getElem_mem hi)]
    exact ⟨Nat.le_add_right .., by omega⟩
  · -- an earlier block is another page
    have hpw := (List.pairwise_append.mp (hinv.pairwise hk)).1
    rw [Heap.blockFrames, List.pairwise_map, List.pairwise_iff_getElem] at hpw
    have hapart := hpw k i (by omega) hi hk'
    have hlayout := (hinv.blocks _ (List.getElem_mem (show k < h.ahaBlockList.length by omega))).layout
    simp only [Apart] at hapart
    rw [decide_eq_true_eq, hend _ (List.getElem_mem _)]
    omega

/-- `kfree` of a chunk in use. -/
theorem kfree_chunk_spec (hk : FrameKeeper bad frames) {p size : ℕ}
    (hinv : HeapInv frames h ((p, size) :: out) []) (hused : (p, size) ∈ h.usedAreas) :
    ∃ h', kfree h p = .ok h' ∧ HeapInv frames h' out [] := by
  obtain ⟨b, hb, hchunk⟩ := List.mem_flatMap.mp hused
  obtain ⟨j, hj, hcell, harea⟩ := mem_usedAreas.mp hchunk
  obtain ⟨rfl, rfl⟩ := Prod.mk.inj harea
  obtain ⟨i, hi, hget⟩ := List.getElem_of_mem hb
  have hget : h.ahaBlockList[i]? = some b := by rw [List.getElem?_eq_getElem hi, hget]
  obtain ⟨blocks, hrel, hblocks, haddrs, hperm⟩ := releaseChunk_spec hinv.blocks hget hj hcell
  have hin := (hinv.blocks b hb).chunk_inside hj
  refine ⟨{ h with ahaBlockList := blocks }, ?_, ?_, hblocks, hinv.bigs, ?_⟩
  · rw [kfree, if_neg (by omega), findBlock_chunk hk hinv hget hj]
    exact hrel
  · have hfr := hinv.frames
    rw [← haddrs] at hfr
    exact hfr
  · have hout : (h.metaAreas ++ b.chunkArea j :: out).Perm
        (b.chunkArea j :: (h.metaAreas ++ out)) := List.perm_middle
    exact ((hperm.append_right h.bigAreas).symm.trans (hinv.areas.trans hout)).cons_inv

/-- The address of a big allocation is in no block, and only one big allocation has it. -/
theorem findBig (hk : FrameKeeper bad frames) (hinv : HeapInv frames h out pending)
    {i : ℕ} {m : AhaBigMeta} (hget : h.ahaBigList[i]? = some m) :
    m.ptr ≠ 0 ∧ h.ahaBlockList.findIdx? (fun block => m.ptr ≥ block.firstPtr ∧
        m.ptr < Word32.add block.addr 4096) = none ∧
      h.ahaBigList.findIdx? (fun bigMeta => bigMeta.ptr = m.ptr) = some i := by
  obtain ⟨hi, rfl⟩ := List.getElem?_eq_some_iff.mp hget
  have hm := List.getElem_mem hi
  obtain ⟨hsize, -, -⟩ := (hinv.bigs _ hm).bounds
  obtain ⟨-, hpwBig, hcross⟩ := List.pairwise_append.mp (hinv.pairwise hk)
  obtain ⟨others, howned⟩ := hk.owned hinv.frames
  have hframe : (h.ahaBigList[i].ptr, h.ahaBigList[i].size / 4096) ∈ h.bigFrames :=
    List.mem_map_of_mem (f := fun m : AhaBigMeta => (m.ptr, m.size / 4096)) hm
  obtain ⟨-, hne, -⟩ := howned.bounds (p := h.ahaBigList[i].ptr)
    (n := h.ahaBigList[i].size / 4096) (by simp [hframe])
  refine ⟨hne, ?_, ?_⟩
  · rw [List.findIdx?_eq_none_iff]
    intro b hb
    have hlayout := (hinv.blocks b hb).layout
    have hbelow := (hinv.blocks b hb).below
    have hapart := hcross (b.addr, 1)
      (List.mem_map_of_mem (f := fun b : AhaBlock => (b.addr, 1)) hb) _ hframe
    simp only [Apart] at hapart
    rw [decide_eq_false_iff_not, Word32.add_of_lt (by omega)]
    omega
  · rw [List.findIdx?_eq_some_iff_getElem]
    refine ⟨hi, by simp, fun k hk' => ?_⟩
    rw [Heap.bigFrames, List.pairwise_map, List.pairwise_iff_getElem] at hpwBig
    have hapart := hpwBig k i (by omega) hi hk'
    obtain ⟨hsizek, -, -⟩ :=
      (hinv.bigs _ (List.getElem_mem (show k < h.ahaBigList.length by omega))).bounds
    simp only [Apart] at hapart
    rw [decide_eq_true_eq]
    omega

theorem bigFree_eq {i : ℕ} {m : AhaBigMeta} (hget : h.ahaBigList[i]? = some m) :
    bigFree h i = (do
      let machine ← unmapFrames h.machine m.ptr (m.size / 4096)
      let pfa ← pfaFree machine.pfa m.ptr
      kfree ⟨{ machine with pfa := pfa }, h.ahaBlockList, h.ahaBigList.eraseIdx i⟩ m.addr) := by
  rw [bigFree]
  split
  · next hnone => cases hget.symm.trans hnone
  · next m' hsome =>
    obtain rfl := Option.some.inj (hget.symm.trans hsome)
    rfl

/-- Without the big allocation, its metadata is an outstanding chunk. -/
theorem areas_eraseIdx {i : ℕ} (hi : i < h.ahaBigList.length)
    (hareas : (h.usedAreas ++ h.bigAreas).Perm
      (h.metaAreas ++ (h.ahaBigList[i].ptr, h.ahaBigList[i].size) :: out)) :
    (h.usedAreas ++ (h.ahaBigList.eraseIdx i).map fun m => (m.ptr, m.size)).Perm
      (((h.ahaBigList.eraseIdx i).map fun m => (m.addr, 16)) ++
        (h.ahaBigList[i].addr, 16) :: out) := by
  have hlist := (List.getElem_cons_eraseIdx_perm hi).symm
  have hbig := ((hlist.map fun m => (m.ptr, m.size)).append_left h.usedAreas).trans List.perm_middle
  have hmeta := (hlist.map fun m => (m.addr, 16)).append_right out
  have hout : (h.metaAreas ++ (h.ahaBigList[i].ptr, h.ahaBigList[i].size) :: out).Perm
      ((h.ahaBigList[i].ptr, h.ahaBigList[i].size) :: (h.metaAreas ++ out)) := List.perm_middle
  have hsame := (hbig.symm.trans (hareas.trans hout)).cons_inv
  exact hsame.trans (hmeta.trans List.perm_middle.symm)

/-- The metadata of a big allocation is a chunk in use: it is too small for a big allocation. -/
theorem HeapInv.meta_used (hinv : HeapInv frames h out pending) {m : AhaBigMeta}
    (hm : m ∈ h.ahaBigList) : (m.addr, 16) ∈ h.usedAreas := by
  have harea : (m.addr, 16) ∈ h.metaAreas :=
    List.mem_map_of_mem (f := fun m : AhaBigMeta => (m.addr, 16)) hm
  rcases List.mem_append.mp (hinv.areas.mem_iff.mpr (List.mem_append_left _ harea)) with
    hused | hbig
  · exact hused
  · obtain ⟨m', hm', harea'⟩ := List.mem_map.mp hbig
    have := (hinv.bigs m' hm').bounds.1
    have := (Prod.mk.inj harea').2
    omega

/-- **`kfree` of an outstanding area** returns, and the area is not outstanding any more. -/
theorem kfree_spec (hk : FrameKeeper bad frames) {p size : ℕ}
    (hinv : HeapInv frames h ((p, size) :: out) []) :
    Run.Returns bad (kfree h p) fun h' => HeapInv frames h' out [] := by
  have hmem : (p, size) ∈ h.usedAreas ++ h.bigAreas := hinv.areas.mem_iff.mpr (by simp)
  rcases List.mem_append.mp hmem with hused | hbig
  · obtain ⟨h', hfree, hinv'⟩ := kfree_chunk_spec hk hinv hused
    rw [hfree]
    exact Run.returns_ok hinv'
  · obtain ⟨m, hm, harea⟩ := List.mem_map.mp hbig
    obtain ⟨rfl, rfl⟩ := Prod.mk.inj harea
    obtain ⟨i, hi, rfl⟩ := List.getElem_of_mem hm
    have hlist := (List.getElem_cons_eraseIdx_perm hi).symm.map
      fun m : AhaBigMeta => (m.ptr, m.size / 4096)
    have hfr : frames h.machine ((h.ahaBigList[i].ptr, h.ahaBigList[i].size / 4096) ::
        (h.blockFrames ++ (h.ahaBigList.eraseIdx i).map fun m => (m.ptr, m.size / 4096))) [] :=
      hk.perm ((hlist.append_left h.blockFrames).trans List.perm_middle) hinv.frames
    have hget := List.getElem?_eq_getElem hi
    obtain ⟨hne, hblock, hfind⟩ := findBig hk hinv hget
    rw [kfree, if_neg hne, hblock]
    simp only [hfind, bigFree_eq hget]
    refine (hk.unmap hfr).bind fun s hs => ?_
    obtain ⟨pfa, hfree, hs'⟩ := hk.free hs
    rw [hfree, Run.ok_bind]
    have hinv' : HeapInv frames ⟨{ s with pfa := pfa }, h.ahaBlockList, h.ahaBigList.eraseIdx i⟩
        ((h.ahaBigList[i].addr, 16) :: out) [] :=
      ⟨hs', hinv.blocks, fun m hm => hinv.bigs m (List.mem_of_mem_eraseIdx hm),
        areas_eraseIdx hi hinv.areas⟩
    have hchunk := hinv.meta_used (List.getElem_mem hi)
    obtain ⟨h', hfree', hinv''⟩ := kfree_chunk_spec hk hinv' hchunk
    rw [hfree']
    exact Run.returns_ok hinv''

end Keeper

end Ahos
