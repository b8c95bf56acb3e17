import Ahos.Mem.Kmalloc.Ownership
import Ahos.Mem.Pfa.Release

/-!
# Exact release of allocations

`kfree` with the heap at the moment it ends, also when it ends in a panic. In a state that calls
of the allocator can reach after `paging_setup`, it returns exactly for the start of a used chunk
and for the address of a big allocation. It changes one cell and one counter for the first, and
unmaps and releases the frames and the metadata of the second. For every other value it panics
before it changes anything.
-/

namespace Ahos

/-! ## Release with the state at its end -/

/-- The end of `kfree`, with the heap at its end. -/
def releaseChunkEnding (h : Heap) (i ptr : ℕ) : Ending Heap :=
  match h.ahaBlockList[i]? with
  | none => .halts .outOfBounds h
  | some block =>
    match (List.range block.totElts).find? fun chunk => block.chunkPtr chunk = ptr with
    | none => .halts (.panic "ptr (0x%p) hasn't matching chunk in block 0x%p") h
    | some chunk =>
      match block.chunkmap[chunk]? with
      | none => .halts .outOfBounds h
      | some state =>
        if state = .free then
          .halts (.panic "double-free detected!") h
        else
          let block' : AhaBlock :=
            { block with
              chunkmap := block.chunkmap.set chunk .free
              nbFrees := Word32.add block.nbFrees 1 }
          .returns { h with ahaBlockList := h.ahaBlockList.set i block' }

/-- The loop of `big_free` over the indices of the page frames, with the machine at its end. A call
of `unmap_page` that halts or fails has not changed the machine. -/
def unmapFramesEnding (machine : Machine) (ptr : ℕ) : List ℕ → Ending Machine
  | [] => .returns machine
  | i :: is =>
    match unmapIdentity machine (Word32.add ptr (Word32.mul i 4096)) with
    | .ok machine => unmapFramesEnding machine ptr is
    | .error why => .halts why machine

mutual

/-- `kfree`, with the heap at its end. -/
def kfreeEnding (h : Heap) (ptr : ℕ) : Ending Heap :=
  if ptr = 0 then
    .halts (.panic "freeing NULL pointer") h
  else
    match h.ahaBlockList.findIdx? fun block =>
        ptr ≥ block.firstPtr ∧ ptr < Word32.add block.addr 4096 with
    | some i => releaseChunkEnding h i ptr
    | none =>
      match h.ahaBigList.findIdx? fun bigMeta => bigMeta.ptr = ptr with
      | some i => bigFreeEnding h i
      | none => .halts (.panic "ptr (0x%p) does not belong to any block or big alloc") h
termination_by 2 * h.ahaBigList.length + 1

/-- `big_free`, with the heap at its end. -/
def bigFreeEnding (h : Heap) (i : ℕ) : Ending Heap :=
  match _h : h.ahaBigList[i]? with
  | none => .halts .outOfBounds h
  | some bigMeta =>
    match unmapFramesEnding h.machine bigMeta.ptr (List.range (bigMeta.size / 4096)) with
    | .halts why machine => .halts why { h with machine := machine }
    | .returns machine =>
      match pfaFreeEnding machine.pfa bigMeta.ptr with
      | .halts why pfa => .halts why { h with machine := { machine with pfa := pfa } }
      | .returns pfa =>
        kfreeEnding
          { machine := { machine with pfa := pfa }
            ahaBlockList := h.ahaBlockList
            ahaBigList := h.ahaBigList.eraseIdx i } bigMeta.addr
termination_by 2 * h.ahaBigList.length
decreasing_by
  have hi := (List.getElem?_eq_some_iff.mp _h).1
  simp only [List.length_eraseIdx, if_pos hi]
  omega

end

/-! ## The outcomes are those of `kfree` -/

theorem outcome_releaseChunkEnding (h : Heap) (i ptr : ℕ) :
    (releaseChunkEnding h i ptr).outcome = releaseChunk h i ptr := by
  simp only [releaseChunkEnding, releaseChunk, readCell]
  cases h.ahaBlockList[i]? with
  | none => rfl
  | some block =>
    simp only [Run.ok_bind]
    cases (List.range block.totElts).find? fun chunk => block.chunkPtr chunk = ptr with
    | none => rfl
    | some chunk =>
      cases hcell : block.chunkmap[chunk]? with
      | none => simp [hcell, Ending.outcome]
      | some state =>
        simp only [hcell, Run.ok_bind]
        split_ifs
        · rfl
        · rfl

theorem outcome_unmapFramesEnding (machine : Machine) (ptr : ℕ) (is : List ℕ) :
    (unmapFramesEnding machine ptr is).outcome = is.foldlM
      (fun machine i => unmapIdentity machine (Word32.add ptr (Word32.mul i 4096))) machine := by
  induction is generalizing machine with
  | nil => rfl
  | cons i is ih =>
    rw [unmapFramesEnding, List.foldlM_cons]
    cases unmapIdentity machine (Word32.add ptr (Word32.mul i 4096)) with
    | error why => rfl
    | ok machine => exact ih machine

theorem bigFreeEnding_eq {h : Heap} {i : ℕ} {m : AhaBigMeta} (hget : h.ahaBigList[i]? = some m) :
    bigFreeEnding h i =
      match unmapFramesEnding h.machine m.ptr (List.range (m.size / 4096)) with
      | .halts why machine => .halts why { h with machine := machine }
      | .returns machine =>
        match pfaFreeEnding machine.pfa m.ptr with
        | .halts why pfa => .halts why { h with machine := { machine with pfa := pfa } }
        | .returns pfa => kfreeEnding
          ⟨{ machine with pfa := pfa }, h.ahaBlockList, h.ahaBigList.eraseIdx i⟩ m.addr := by
  rw [bigFreeEnding]
  split
  · next hnone => cases hget.symm.trans hnone
  · next m' hsome =>
    obtain rfl := Option.some.inj (hget.symm.trans hsome)
    rfl

/-- The release with the heap at its end has the outcome of the release. -/
theorem outcome_kfreeEnding (h : Heap) (ptr : ℕ) : (kfreeEnding h ptr).outcome = kfree h ptr := by
  -- the metadata of a big allocation is released after it has left the list
  induction hn : h.ahaBigList.length using Nat.strong_induction_on generalizing h ptr with
  | _ n ih =>
    subst hn
    rw [kfreeEnding, kfree]
    split_ifs
    · rfl
    cases h.ahaBlockList.findIdx? fun block =>
        ptr ≥ block.firstPtr ∧ ptr < Word32.add block.addr 4096 with
    | some i => exact outcome_releaseChunkEnding h i ptr
    | none =>
      cases hfind : h.ahaBigList.findIdx? fun bigMeta => bigMeta.ptr = ptr with
      | none => rfl
      | some i =>
        obtain ⟨hi, -⟩ := List.findIdx?_eq_some_iff_getElem.mp hfind
        have hget := List.getElem?_eq_getElem hi
        simp only [bigFreeEnding_eq hget, bigFree_eq hget, unmapFrames]
        rw [← outcome_unmapFramesEnding]
        cases unmapFramesEnding h.machine h.ahaBigList[i].ptr
            (List.range (h.ahaBigList[i].size / 4096)) with
        | halts why machine => rfl
        | returns machine =>
          simp only [Ending.outcome, Run.ok_bind]
          rw [← outcome_pfaFreeEnding]
          cases pfaFreeEnding machine.pfa h.ahaBigList[i].ptr with
          | halts why pfa => rfl
          | returns pfa =>
            refine ih (h.ahaBigList.eraseIdx i).length ?_ _ _ rfl
            rw [List.length_eraseIdx, if_pos hi]
            omega

/-! ## What a release changes -/

/-- `p` is the start of a used chunk: chunk `j` of the block `b`, which is the block `i` of the
list. -/
structure UsedChunk (h : Heap) (p i j : ℕ) (b : AhaBlock) : Prop where
  block : h.ahaBlockList[i]? = some b
  index : j < b.totElts
  cell : b.chunkmap[j]? = some .used
  start : p = b.firstPtr + b.eltSize * j

/-- The block after the release of chunk `j`. -/
def AhaBlock.freed (b : AhaBlock) (j : ℕ) : AhaBlock :=
  { b with chunkmap := b.chunkmap.set j .free, nbFrees := b.nbFrees + 1 }

/-- The heap after the release of the big allocation `m`, which is the entry `k` of the list. -/
structure BigFreed (h : Heap) (k : ℕ) (m : AhaBigMeta) (h' : Heap) : Prop where
  entry : h'.ahaBigList = h.ahaBigList.eraseIdx k
  /-- The chunk of the metadata is released, and no other. -/
  metaChunk : ∃ i j b, UsedChunk h m.addr i j b ∧
    h'.ahaBlockList = h.ahaBlockList.set i (b.freed j)
  /-- The pages of the allocation were mapped to themselves and are not mapped any more; the other
  pages are mapped as before. -/
  unmapped : ∀ v < 0xffc00000, v % 4096 = 0 →
    if m.ptr ≤ v ∧ v < m.ptr + m.size then
      walk h.machine.mem h.machine.cr3 v = some (v, kernelFlags) ∧
        walk h'.machine.mem h.machine.cr3 v = none
    else walk h'.machine.mem h.machine.cr3 v = walk h.machine.mem h.machine.cr3 v
  /-- The cells of its frames are set to `PAGE_FREE`, and no others. -/
  released : ∃ i r k, h.machine.pfa[i]? = some r ∧ m.ptr = r.firstPage + 4096 * k ∧
    k + m.size / 4096 ≤ r.nbPages ∧
    h'.machine.pfa = h.machine.pfa.set i { r with
      pagemap := r.pagemap.take k ++
        (List.replicate (m.size / 4096) .free ++ r.pagemap.drop (k + m.size / 4096)) }
  registers : h'.machine = { h.machine with mem := h'.machine.mem, pfa := h'.machine.pfa }

/-! ## Frames that are held -/

/-- The allocator holds its frames, whatever is mapped elsewhere. -/
theorem heldFrames_keeper (dir : ℕ) : FrameKeeper (fun _ => True) (HeldFrames dir) where
  owned h := h.owned
  alloc h n := by
    obtain ⟨p, pfa, halloc, hheld, -⟩ := h.alloc n
    exact ⟨p, pfa, halloc, hheld⟩
  map {s mapped pending p n} h := by
    obtain ⟨hend, hpages⟩ := h.pages (p := p) (n := n) (by simp)
    rw [mapFrames_eq hend]
    exact (foldlM_remapped (fun _ => True)
      (fun t a ht hnull ha _ _ =>
        ⟨fun u hu => mapIdentity_remapped ht hnull ha hu, fun _ _ => trivial⟩) h.paging h.null
      (fun f hf => ⟨(hpages f hf).1, (hpages f hf).2, trivial⟩)
      (nodup_pagesIn _ _)).imp fun t ht => h.map ht
  unmap h := h.unmap.imp fun t ht => ht.1
  free h := by
    obtain ⟨pfa, hfree, hheld, -⟩ := h.release
    exact ⟨pfa, hfree, hheld⟩
  perm hperm h := h.perm hperm

section Exact

variable {dir : ℕ} {h : Heap} {out : List (ℕ × ℕ)} {p : ℕ}

/-- A used chunk is released, and nothing else changes. -/
theorem kfreeEnding_chunk {frames : Machine → List (ℕ × ℕ) → List (ℕ × ℕ) → Prop}
    {bad : Halt → Prop} (hk : FrameKeeper bad frames) (hinv : HeapInv frames h out []) {i j : ℕ}
    {b : AhaBlock} (hchunk : UsedChunk h p i j b) :
    kfreeEnding h p = .returns { h with ahaBlockList := h.ahaBlockList.set i (b.freed j) } := by
  obtain ⟨hget, hj, hcell, rfl⟩ := hchunk
  have hb := hinv.blocks b (List.mem_of_getElem? hget)
  have hin := hb.chunk_inside hj
  have hcount : b.chunkmap.count .free ≤ b.chunkmap.length := List.count_le_length
  have hbelow := hb.below
  have hfrees : Word32.add b.nbFrees 1 = b.nbFrees + 1 := by
    have := hb.frees
    have := hb.chunks
    exact Word32.add_of_lt (by omega)
  rw [kfreeEnding, if_neg (by omega), findBlock_chunk hk hinv hget hj]
  simp only [releaseChunkEnding, hget, hb.find_chunk hj, hcell, hfrees]
  rfl

/-- Without a used chunk or a big allocation at `p`, the release panics at once. -/
theorem kfreeEnding_other (hblocks : ∀ b ∈ h.ahaBlockList, BlockInv b)
    (hchunk : ∀ i j b, ¬ UsedChunk h p i j b) (hbig : ∀ m ∈ h.ahaBigList, m.ptr ≠ p) :
    ∃ msg, kfreeEnding h p = .halts (.panic msg) h := by
  rw [kfreeEnding]
  split
  · exact ⟨_, rfl⟩
  cases hfind : h.ahaBlockList.findIdx? fun block =>
      p ≥ block.firstPtr ∧ p < Word32.add block.addr 4096 with
  | none =>
    cases hfindBig : h.ahaBigList.findIdx? fun bigMeta => bigMeta.ptr = p with
    | none => exact ⟨_, rfl⟩
    | some k =>
      obtain ⟨hk, hptr, -⟩ := List.findIdx?_eq_some_iff_getElem.mp hfindBig
      exact absurd (by simpa using hptr) (hbig _ (List.getElem_mem hk))
  | some i =>
    obtain ⟨hi, -⟩ := List.findIdx?_eq_some_iff_getElem.mp hfind
    have hget := List.getElem?_eq_getElem hi
    have hb := hblocks _ (List.getElem_mem hi)
    simp only [releaseChunkEnding, hget]
    cases hchunkFind : (List.range h.ahaBlockList[i].totElts).find?
        fun chunk => h.ahaBlockList[i].chunkPtr chunk = p with
    | none => exact ⟨_, rfl⟩
    | some j =>
      have hj := List.mem_range.mp (List.mem_of_find?_eq_some hchunkFind)
      have hp : h.ahaBlockList[i].chunkPtr j = p := by simpa using List.find?_some hchunkFind
      rw [hb.chunkPtr_eq hj] at hp
      have hcell := List.getElem?_eq_getElem (hb.chunks ▸ hj)
      simp only [hcell]
      cases hstate : h.ahaBlockList[i].chunkmap.get ⟨j, hb.chunks ▸ hj⟩ with
      | free =>
        simp only [List.get_eq_getElem] at hstate
        rw [if_pos hstate]
        exact ⟨_, rfl⟩
      | used =>
        simp only [List.get_eq_getElem] at hstate
        exact absurd ⟨hget, hj, by rw [hcell, hstate], hp.symm⟩ (hchunk i j h.ahaBlockList[i])

/-- A used area of the size of a chunk is a used chunk. -/
theorem exists_usedChunk {a : ℕ × ℕ} (ha : a ∈ h.usedAreas) : ∃ i j b, UsedChunk h a.1 i j b := by
  obtain ⟨b, hb, hchunk⟩ := List.mem_flatMap.mp ha
  obtain ⟨j, hj, hcell, rfl⟩ := mem_usedAreas.mp hchunk
  obtain ⟨i, hi, rfl⟩ := List.getElem_of_mem hb
  exact ⟨i, j, _, List.getElem?_eq_getElem hi, hj, hcell, rfl⟩

/-- A big allocation is outstanding. -/
theorem HeapInv.big_outstanding {frames : Machine → List (ℕ × ℕ) → List (ℕ × ℕ) → Prop}
    {pending : List (ℕ × ℕ)} (hinv : HeapInv frames h out pending) {m : AhaBigMeta}
    (hm : m ∈ h.ahaBigList) : (m.ptr, m.size) ∈ out := by
  have harea : (m.ptr, m.size) ∈ h.bigAreas :=
    List.mem_map_of_mem (f := fun m : AhaBigMeta => (m.ptr, m.size)) hm
  rcases List.mem_append.mp (hinv.areas.mem_iff.mp (List.mem_append_right _ harea)) with
    hmeta | hout
  · -- metadata is smaller than a page
    obtain ⟨m', hm', harea'⟩ := List.mem_map.mp hmeta
    have := (hinv.bigs m hm).bounds.1
    have := (Prod.mk.inj harea').2
    omega
  · exact hout

/-- A big allocation is unmapped and released with its metadata. -/
theorem kfreeEnding_big (hinv : HeapInv (HeldFrames dir) h out []) {k : ℕ} {m : AhaBigMeta}
    (hget : h.ahaBigList[k]? = some m) :
    ∃ h', kfreeEnding h m.ptr = .returns h' ∧ BigFreed h k m h' := by
  obtain ⟨hk, rfl⟩ := List.getElem?_eq_some_iff.mp hget
  have hm := List.getElem_mem hk
  set m := h.ahaBigList[k]
  obtain ⟨hpage, -, hpages⟩ := (hinv.bigs m hm).bounds
  obtain ⟨hne, hblock, hfind⟩ := findBig (heldFrames_keeper dir) hinv hget
  have halign : m.ptr % 4096 = 0 := by
    obtain ⟨others, howned⟩ := hinv.frames.owned
    have hframe : (m.ptr, m.size / 4096) ∈ h.bigFrames :=
      List.mem_map_of_mem (f := fun m : AhaBigMeta => (m.ptr, m.size / 4096)) hm
    exact (howned.bounds (p := m.ptr) (n := m.size / 4096) (by simp [hframe])).2.2.1
  -- the pages are unmapped
  have hlist := (List.getElem_cons_eraseIdx_perm hk).symm.map
    fun m : AhaBigMeta => (m.ptr, m.size / 4096)
  have hheld : HeldFrames dir h.machine ((m.ptr, m.size / 4096) ::
      (h.blockFrames ++ (h.ahaBigList.eraseIdx k).map fun m => (m.ptr, m.size / 4096))) [] :=
    hinv.frames.perm ((hlist.append_left h.blockFrames).trans List.perm_middle)
  have hnever : Run.Returns (fun _ => False) (unmapFrames h.machine m.ptr (m.size / 4096)) _ :=
    hheld.unmap
  obtain ⟨hunmapped, hnever⟩ := hnever
  cases hunmap : unmapFrames h.machine m.ptr (m.size / 4096) with
  | error e => exact (hnever e hunmap).elim
  | ok t =>
    obtain ⟨hheld', hremap⟩ := hunmapped t hunmap
    have hpfa := (unmapFrames_pfa h.machine m.ptr (m.size / 4096)).1 t hunmap
    rw [unmapFrames, ← outcome_unmapFramesEnding, Ending.outcome_eq_ok] at hunmap
    -- the frames are released
    obtain ⟨pfa, hfree, hheld'', -⟩ := hheld'.release
    obtain ⟨others, howned⟩ := hheld'.owned
    obtain ⟨i, r, j, hr, hptr, hend, hcells⟩ := pfaFree_cells howned (List.mem_cons_self ..)
    have hcells := Except.ok.inj (hfree.symm.trans hcells)
    rw [← outcome_pfaFreeEnding, Ending.outcome_eq_ok] at hfree
    -- the metadata is a chunk of the heap without the allocation
    have hout := (List.perm_cons_erase (hinv.big_outstanding hm)).append_left h.metaAreas
    have hinv' : HeapInv (HeldFrames dir)
        ⟨{ t with pfa := pfa }, h.ahaBlockList, h.ahaBigList.eraseIdx k⟩
        ((m.addr, 16) :: out.erase (m.ptr, m.size)) [] :=
      ⟨hheld'', hinv.blocks, fun m hm => hinv.bigs m (List.mem_of_mem_eraseIdx hm),
        areas_eraseIdx hk (hinv.areas.trans hout)⟩
    obtain ⟨bi, c, b, hchunk⟩ := exists_usedChunk (hinv.meta_used hm)
    have hmeta := kfreeEnding_chunk (heldFrames_keeper dir) hinv'
      (i := bi) (j := c) (b := b) (p := m.addr) ⟨hchunk.block, hchunk.index, hchunk.cell, hchunk.start⟩
    refine ⟨⟨{ t with pfa := pfa }, h.ahaBlockList.set bi (b.freed c), h.ahaBigList.eraseIdx k⟩,
      ?_, ⟨rfl, ⟨bi, c, b, hchunk, rfl⟩, fun v hv hmod => ?_,
        ⟨i, r, j, hpfa ▸ hr, hptr, hend, hpfa ▸ hcells⟩, ?_⟩⟩
    · rw [kfreeEnding, if_neg hne, hblock]
      simp only [hfind, bigFreeEnding_eq hget, hunmap, hfree]
      exact hmeta
    · obtain rfl : h.machine.cr3 = dir := hheld.mode.2
      have hpage : v ∈ pagesIn m.ptr (m.ptr + 4096 * (m.size / 4096)) ↔
          m.ptr ≤ v ∧ v < m.ptr + m.size := by
        rw [← hpages, mem_pagesIn]
        omega
      rw [hremap.walk_eq ⟨hv, hmod⟩]
      simp only [hpage]
      split_ifs with hin
      · have hwithin := mem_framePages.mp (hpage.mpr hin)
        exact ⟨hheld.mapped v (within_cons.mpr (.inl hwithin)), rfl⟩
      · rfl
    · rw [hremap.same]

end Exact

/-- **`kfree` is exact**, in every state that calls of the allocator reach after `paging_setup`.
The start of a used chunk is released by one cell and one counter. The address of a big allocation
is released with its frames, its pages, its entry and the chunk of its metadata, and nothing else.
For every other value `kfree` panics, and the heap is the one before the call. -/
theorem kfree_exact {env : BootRanges} {s₀ s : Machine} (henv : env.Below)
    (hready : PfaStart s₀.pfa)
    (hbelow : ∀ r ∈ s₀.pfa, 0 < r.nbPages → r.firstPage + 4096 * r.nbPages ≤ 0xffc00000)
    (hflag : s₀.pagingEnabled = false) (hpg : s₀.cr0Pg = false)
    (hsetup : pagingSetup env s₀ = .ok s) {ops : List HeapOp} (hops : ∀ op ∈ ops, op.Bounded)
    {r : HeapRun} (hrun : Run.run HeapRun.step (.start s) ops = .ok r) (p : ℕ) :
    (∀ i j b, UsedChunk r.heap p i j b → kfreeEnding r.heap p =
      .returns { r.heap with ahaBlockList := r.heap.ahaBlockList.set i (b.freed j) }) ∧
    (∀ k m, r.heap.ahaBigList[k]? = some m → m.ptr = p →
      ∃ h', kfreeEnding r.heap p = .returns h' ∧ BigFreed r.heap k m h') ∧
    ((∀ i j b, ¬ UsedChunk r.heap p i j b) → (∀ m ∈ r.heap.ahaBigList, m.ptr ≠ p) →
      ∃ msg, kfreeEnding r.heap p = .halts (.panic msg) r.heap) := by
  obtain ⟨hstart, -⟩ := heldFrames_start henv hready hbelow hflag hpg hsetup
  have hinv : HeapInv (HeldFrames s.cr3) r.heap r.areas [] :=
    (HeapRun.run_spec (s := .start s) (heldFrames_keeper s.cr3) hops
      ⟨hstart, by simp [HeapRun.start], by simp [HeapRun.start], List.Perm.nil⟩).1 r hrun
  refine ⟨fun i j b hchunk => kfreeEnding_chunk (heldFrames_keeper s.cr3) hinv hchunk, ?_, ?_⟩
  · rintro k m hget rfl
    exact kfreeEnding_big hinv hget
  · exact fun hchunk hbig => kfreeEnding_other hinv.blocks hchunk hbig

/-- The machine with six frames at 2 MB, after a small and a big allocation: the used chunk is
released, the big allocation is released, and the address of the header of their block, which no
caller holds, makes `kfree` panic. -/
theorem kfree_exact_small :
    ∃ s r, pagingSetup smallBoot roomyMachine = .ok s ∧
      Run.run HeapRun.step (.start s) [.kmalloc 10, .kmalloc 5000] = .ok r ∧
      kfreeEnding r.heap 0x202108 =
        .returns { r.heap with ahaBlockList := [roomyBlock.freed 0] } ∧
      (∃ h', kfreeEnding r.heap 0x203000 = .returns h' ∧
        BigFreed r.heap 0 ⟨0x202118, 8192, 0x203000⟩ h' ∧
        h'.ahaBlockList = [roomyBlock.freed 1]) ∧
      ∃ msg, kfreeEnding r.heap 0x202000 = .halts (.panic msg) r.heap := by
  obtain ⟨s, r, hs, hrun, -, hblocks, hbigs⟩ := roomyMachine_run
  have hexact := kfree_exact smallBoot_below pfaStart_roomyMachine roomyMachine_below rfl rfl hs
    (by simp [HeapOp.Bounded]) hrun
  -- the used chunks are the first two of the only block
  have hused : ∀ {p i j b}, UsedChunk r.heap p i j b →
      i = 0 ∧ b = roomyBlock ∧ (j = 0 ∨ j = 1) ∧ p = 0x202108 + 16 * j := by
    rintro p i j b ⟨hb, hj, hcell, rfl⟩
    rw [hblocks, List.getElem?_singleton] at hb
    split_ifs at hb with hi
    obtain rfl := Option.some.inj hb
    refine ⟨hi, rfl, ?_, rfl⟩
    obtain _ | _ | j := j
    · exact .inl rfl
    · exact .inr rfl
    · rw [roomyBlock, List.getElem?_cons_succ, List.getElem?_cons_succ] at hcell
      have hfree := List.eq_of_mem_replicate (List.mem_of_getElem? hcell)
      cases hfree
  have hchunk : ∀ j < 2, UsedChunk r.heap (0x202108 + 16 * j) 0 j roomyBlock := by
    intro j hj
    refine ⟨by rw [hblocks]; rfl, by simp only [roomyBlock]; omega, ?_, rfl⟩
    obtain rfl | rfl : j = 0 ∨ j = 1 := by omega
    · rfl
    · rfl
  have hset : ∀ j, r.heap.ahaBlockList.set 0 (roomyBlock.freed j) = [roomyBlock.freed j] := by
    intro j
    rw [hblocks]
    rfl
  refine ⟨s, r, hs, hrun, ?_, ?_, ?_⟩
  · rw [← hset]
    exact (hexact 0x202108).1 0 0 roomyBlock (hchunk 0 (by decide))
  · obtain ⟨h', hend, hfreed⟩ := (hexact 0x203000).2.1 0 ⟨0x202118, 8192, 0x203000⟩
      (by rw [hbigs]; rfl) rfl
    refine ⟨h', hend, hfreed, ?_⟩
    obtain ⟨i, j, b, hmeta, hblocks'⟩ := hfreed.metaChunk
    obtain ⟨rfl, rfl, -, haddr⟩ := hused hmeta
    obtain rfl : j = 1 := by
      simp only at haddr
      omega
    rw [hblocks', hset]
  · refine (hexact 0x202000).2.2 (fun i j b hmem => ?_) (by simp [hbigs])
    obtain ⟨-, -, -, haddr⟩ := hused hmem
    omega

end Ahos
