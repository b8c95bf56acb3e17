import Ahos.Mem.Kmalloc.RawBlock

/-!
# `kmalloc` in memory

On a machine that stores a heap, `kmalloc` returns the pointer that it returns on the heap, or
stops with the same error, and leaves a machine that stores the heap that results. No word of an
area that a caller holds is written.
-/

namespace Ahos.Raw

section Alloc

variable {lists : AhaLists} {dir : ℕ} {regions : List (ℕ × ℕ)} {m : ℕ → Option (ℕ × ℕ)} {h : Heap}
  {out pending : List (ℕ × ℕ)} {t : Machine} {size : ℕ}

/-- The words of the allocator are addresses. -/
theorem own_lt (hheads : Heads lists regions m)
    (hinv : HeapInv (KeptFrames dir regions m) h out pending) :
    ∀ x, Own lists h.blockFrames x → x < 4294967296 := fun _ hx => (own_spec hheads hinv hx).1

/-- **`find_non_full_block`** finds the block that the search of the heap finds. -/
theorem findNonFullBlock_eq (hheads : Heads lists regions m)
    (hinv : HeapInv (KeptFrames dir regions m) h out pending) (hst : Stores lists dir h t)
    (size : ℕ) :
    findNonFullBlock lists t size = .ok (((h.ahaBlockList.find? fun b =>
      b.eltSize = size ∧ b.nbFrees > 0).map AhaBlock.addr).getD 0) := by
  have ht := direct_own hheads hinv hst.shadow
  have hlist := hst.heap.blockList
  rw [findNonFullBlock, listEmpty_eq ht hlist, Run.ok_bind]
  by_cases hempty : h.ahaBlockList = []
  · simp [blockNodes, hempty]
  · have hne : blockNodes h ≠ [] := by simpa [blockNodes] using hempty
    simp only [hne, decide_false, Bool.false_eq_true, if_false,
      ht.load (hlist.words _ (List.mem_cons_self ..)).2, Run.ok_bind]
    rw [listForEach_records (p := fun b => b.eltSize = size ∧ b.nbFrees > 0) (f := AhaBlock.addr) ht hlist
      (own_lt hheads hinv) fun b hb => ?_]
    · rfl
    · have hbi := hinv.blocks b hb
      have hat := hst.heap.blocks b hb
      have hown : ∀ x, BlockField b x → Own lists h.blockFrames x := fun x hx =>
        own_blockField hinv hb hx
      have hbelow := hbi.below
      simp only [blockOf_blockNode (show b.addr + 16 < 4294967296 by omega)]
      rw [ht.load (hown _ (.inl (by omega))), Run.ok_bind, hat.eltSize,
        ht.load (hown _ (.inl (by unfold nbFrees; omega))), Run.ok_bind, hat.frees]
      by_cases helt : b.eltSize = size
      · simp [helt]
      · simp [helt]

/-- What a search for the position of a block says about the block. -/
theorem find?_of_findIdx? {blocks : List AhaBlock} {p : AhaBlock → Bool} {i : ℕ}
    (h : blocks.findIdx? p = some i) :
    ∃ b, blocks[i]? = some b ∧ blocks.find? p = some b ∧ p b = true := by
  obtain ⟨hi, hp, -⟩ := List.findIdx?_eq_some_iff_getElem.mp h
  refine ⟨blocks[i], List.getElem?_eq_getElem hi, ?_, hp⟩
  rw [List.find?_eq_bind_findIdx?_getElem?, h]
  exact List.getElem?_eq_getElem hi

/-- A block is not at the address `NULL`. -/
theorem block_ne_zero (hinv : HeapInv (KeptFrames dir regions m) h out pending) {b : AhaBlock}
    (hb : b ∈ h.ahaBlockList) : b.addr ≠ 0 := by
  obtain ⟨others, howned⟩ := (keptFrames_keeper dir regions m).owned hinv.frames
  have hframe : (b.addr, 1) ∈ h.blockFrames :=
    List.mem_map_of_mem (f := fun b : AhaBlock => (b.addr, 1)) hb
  exact (howned.bounds (p := b.addr) (n := 1) (by simp [hframe])).2.1

/-- Changing the allocator of both machines. -/
theorem Stores.setPfa (hst : Stores lists dir h t) (pfa : PfaMeta) :
    Stores lists dir { h with machine := { h.machine with pfa := pfa } } { t with pfa := pfa } := by
  refine ⟨⟨?_, hst.shadow.agree⟩, hst.heap.machine _⟩
  conv_lhs => rw [hst.shadow.same]

/-- **`new_block`** in memory. -/
theorem newBlock_simulates (hheads : Heads lists regions m)
    (hinv : HeapInv (KeptFrames dir regions m) h out pending) (hst : Stores lists dir h t)
    (hsize : SmallSize size) :
    Run.Simulates (fun r r' => SameAlloc lists dir out t r r' ∧
        (r.1 ≠ 0 → ∃ b, r.2.ahaBlockList[0]? = some b ∧ b.addr = r.1))
      (Ahos.newBlock h size) (newBlock lists t size) := by
  obtain ⟨hpos, -⟩ := nbElts_spec hsize
  have hspec := newBlock_spec (keptFrames_keeper dir regions m) hinv hsize
  obtain ⟨p, pfa, halloc, hframes⟩ := hinv.frames.alloc 1
  have hst₁ := hst.setPfa pfa
  have hpfa : t.pfa = h.machine.pfa := by rw [hst.shadow.same]
  simp only [Ahos.newBlock, newBlock, if_neg (show nbElts size ≠ 0 by omega), hpfa, halloc,
    Run.ok_bind] at hspec ⊢
  by_cases hp : p = 0
  · simp only [if_pos hp]
    exact .ok ⟨⟨rfl, hst₁, fun _ _ => rfl⟩, by simp⟩
  · simp only [if_neg hp] at hspec ⊢
    rw [if_neg (show p ≠ badPage from hp)] at hframes
    have hlt := hframes.frames.held.within_below (f := p) ⟨(p, 1), by simp, 0, by simp⟩
    have hsim := mapIdentity_shadow hframes.frames.paging hst₁.shadow hlt.1 notImplemented
    generalize mapIdentity { h.machine with pfa := pfa } p notImplemented = x at hsim hspec ⊢
    generalize mapIdentity { t with pfa := pfa } p notImplemented = y at hsim ⊢
    cases hsim with
    | error e => exact .error e
    | @ok s₁ t₁ hcall =>
      obtain ⟨hinv', -, -⟩ := hspec.1 _ rfl
      simp only [Run.ok_bind, Run.pure_eq] at hinv' ⊢
      obtain ⟨hshadow, hat, hkeeps⟩ := Stores.paging hheads hinv' hst₁.heap hinv.blocks
        (fun x hx => Own.mono (fun a ha => List.mem_cons_of_mem _ ha) (own_stored hinv hx.machine)) hcall
      obtain ⟨mem, hinit, hat', hout⟩ := initBlock_spec hheads hinv' rfl rfl hshadow (hat.machine s₁)
      obtain ⟨hshadow', hkeeps'⟩ := shadow_write [] hheads hinv' hshadow
        (by simpa using hout)
      simp only at hinit
      rw [hinit]
      exact .ok ⟨⟨rfl, ⟨hshadow', hat'⟩, hkeeps.trans hkeeps'⟩, fun _ => ⟨_, rfl, rfl⟩⟩

/-- **`kmalloc` for a small size** in memory. -/
theorem smallAlloc_simulates (hheads : Heads lists regions m)
    (hinv : HeapInv (KeptFrames dir regions m) h out pending) (hst : Stores lists dir h t)
    (hsize : SmallSize size) :
    Run.Simulates (SameAlloc lists dir out t) (Ahos.smallAlloc h size) (smallAlloc lists t size) := by
  rw [smallAlloc, findNonFullBlock_eq hheads hinv hst, Run.ok_bind, Ahos.smallAlloc]
  cases hfind : Ahos.findNonFullBlock h.ahaBlockList size with
  | some i =>
    obtain ⟨b, hget, hblock, hp⟩ := find?_of_findIdx? hfind
    have hb := List.mem_of_getElem? hget
    rw [decide_eq_true_eq] at hp
    rw [hblock, Option.map_some, Option.getD_some, if_pos (block_ne_zero hinv hb)]
    exact takeChunk_simulates hheads hinv hst hget hp.2
  | none =>
    have hnone : (h.ahaBlockList.find? fun b => b.eltSize = size ∧ b.nbFrees > 0) = none := by
      rw [List.find?_eq_bind_findIdx?_getElem?, ← Ahos.findNonFullBlock, hfind]
      rfl
    rw [hnone, Option.map_none, Option.getD_none, if_neg (by simp)]
    refine ((newBlock_simulates hheads hinv hst hsize).and
      (newBlock_spec (keptFrames_keeper dir regions m) hinv hsize)).bind ?_
    rintro ⟨block, h'⟩ ⟨block', t'⟩ ⟨⟨hinv', -, hnew⟩, ⟨hptr, hst', hkeeps⟩, hfirst⟩
    simp only at hptr hst' hkeeps hinv' hnew hfirst
    subst hptr
    by_cases hblock : block' = 0
    · simp only [hblock, if_true]
      exact .ok ⟨rfl, hst', hkeeps⟩
    · obtain ⟨b, hget, -, hfrees⟩ := hnew hblock
      obtain ⟨b', hget', haddr⟩ := hfirst hblock
      obtain rfl := Option.some.inj (hget.symm.trans hget')
      simp only [if_neg hblock]
      rw [← haddr]
      exact (takeChunk_simulates hheads hinv' hst' hget hfrees).imp fun r r' hr =>
        ⟨hr.ptr, hr.stores, hkeeps.trans hr.keeps⟩

/-- The metadata of a big allocation is written and linked. -/
theorem linkMeta_spec (bigMeta : AhaBigMeta) (hheads : Heads lists regions m)
    (hinv : HeapInv (KeptFrames dir regions m) h ((bigMeta.addr, 16) :: out) pending)
    (hst : Stores lists dir h t) :
    ∃ mem, linkMeta lists t bigMeta.addr bigMeta.size bigMeta.ptr = .ok { t with mem := mem } ∧
      HeapAt lists mem { h with ahaBigList := bigMeta :: h.ahaBigList } ∧
      Shadow dir h.machine { t with mem := mem } ∧ KeepsAreas out t.mem mem := by
  have ht := direct_own hheads hinv hst.shadow
  -- the area of the metadata is a chunk, and no record of the heap lies there
  have hown : ∀ x, bigMeta.addr ≤ x → x < bigMeta.addr + 16 → Own lists h.blockFrames x := by
    intro x hlo hhi
    have hused : (bigMeta.addr, 16) ∈ h.usedAreas ++ h.bigAreas := hinv.areas.mem_iff.mpr (by simp)
    rcases List.mem_append.mp hused with hused | hbig
    · obtain ⟨b, hb, hlo', hhi'⟩ := meta_block hinv hused
      exact .inr (within_block hinv hb (by omega) (by omega))
    · obtain ⟨m', hm', harea⟩ := List.mem_map.mp hbig
      have := (hinv.bigs m' hm').bounds
      have := (Prod.mk.inj harea).2
      omega
  have hapart : ∀ a ∈ pieces lists h, AreasApart a (bigMeta.addr, 16) := fun a ha =>
    (List.pairwise_append.mp (pairwise_pieces hheads hinv)).2.2 a ha _ (List.mem_cons_self ..)
  have hfree : ∀ x, InAreas (pieces lists h) x → x < bigMeta.addr ∨ bigMeta.addr + 16 ≤ x := by
    rintro x ⟨a, ha, hx⟩
    have := hapart a ha
    unfold AreasApart at this
    omega
  have hnodes : ∀ node ∈ lists.ahaBigList :: bigNodes h,
      NodesApart (metaNode bigMeta.addr) node := by
    intro node hnode
    unfold NodesApart metaNode
    rcases List.mem_cons.mp hnode with rfl | hnode
    · have := hapart _ head_piece.2
      unfold AreasApart at this
      omega
    · obtain ⟨m', hm', rfl⟩ := List.mem_map.mp hnode
      have := hapart _ (big_piece hm')
      unfold AreasApart at this
      unfold metaNode
      omega
  have hsize := hown bigMeta.addr (by omega) (by omega)
  have hptr := hown (metaPtr bigMeta.addr) (by unfold metaPtr; omega) (by unfold metaPtr; omega)
  have ht₁ := ht.update hsize bigMeta.size
  have ht₂ := ht₁.update hptr bigMeta.ptr
  have hfields : ∀ x, x < bigMeta.addr ∨ bigMeta.addr + 16 ≤ x → Function.update
      (Function.update t.mem bigMeta.addr bigMeta.size) (metaPtr bigMeta.addr) bigMeta.ptr x =
        t.mem x := by
    intro x hx
    rw [Function.update_of_ne (by unfold metaPtr; omega), Function.update_of_ne (by omega)]
  have hlist := hst.heap.bigList.congr fun x hx => hfields x (hfree x (stored_piece (.bigList hx)))
  obtain ⟨mem, hadd, hring, hout⟩ := listAdd_spec ht₂ hlist
    ⟨hown (metaNode bigMeta.addr) (by unfold metaNode; omega) (by unfold metaNode; omega),
      hown (metaNode bigMeta.addr + 4) (by unfold metaNode; omega) (by unfold metaNode; omega)⟩
    hnodes
  -- the words that are written lie in the area or are nodes of the list
  have hsame : ∀ x, x < bigMeta.addr ∨ bigMeta.addr + 16 ≤ x →
      ¬ NodeWord (lists.ahaBigList :: bigNodes h) x → mem x = t.mem x := by
    intro x hx hnode
    refine (hout x ?_).trans (hfields x hx)
    rintro ⟨node, hmem, hxn⟩
    rcases List.mem_cons.mp hmem with rfl | hmem
    · unfold metaNode at hxn
      omega
    · exact hnode ⟨node, hmem, hxn⟩
  have hread : ∀ x, bigMeta.addr ≤ x → x < bigMeta.addr + 8 → mem x = Function.update
      (Function.update t.mem bigMeta.addr bigMeta.size) (metaPtr bigMeta.addr) bigMeta.ptr x := by
    refine fun x hlo hhi => hout x ?_
    rintro ⟨node, hmem, hxn⟩
    rcases List.mem_cons.mp hmem with rfl | hmem
    · unfold metaNode at hxn
      omega
    · have := hfree x (stored_piece (.bigList ⟨node, hmem, hxn⟩))
      omega
  obtain ⟨hshadow, hkeeps⟩ := shadow_write [(bigMeta.addr, 16)] hheads
    (by simpa using hinv) hst.shadow fun x (hx : ¬ InAreas _ x) => show mem x = _ by
      refine hsame x ?_ fun hnode => hx ?_
      · by_contra hin
        exact hx ⟨(bigMeta.addr, 16), by simp, by simp only; omega⟩
      · obtain ⟨a, ha, hxa⟩ := stored_piece (h := h) (.bigList hnode)
        exact ⟨a, List.mem_append_left _ ha, hxa⟩
  refine ⟨mem, ?_, ?_, hshadow, hkeeps⟩
  · rw [linkMeta, ht.store hsize, Run.ok_bind, ht₁.store hptr, Run.ok_bind, hadd]
  · constructor
    case blocks =>
      exact fun b hb => (hst.heap.blocks b hb).congr (hinv.blocks b hb) fun x hx =>
        hsame x (hfree x ⟨_, block_piece hb, hx.within⟩) (onlyBlock hheads hinv hb hx).bigList
    case bigs =>
      intro m' hm'
      rcases List.mem_cons.mp hm' with rfl | hm'
      · refine ⟨?_, ?_⟩
        · rw [hread _ (by omega) (by omega), Function.update_of_ne (by unfold metaPtr; omega),
            Function.update_self]
        · rw [hread _ (by unfold metaPtr; omega) (by unfold metaPtr; omega), Function.update_self]
      · exact (hst.heap.bigs m' hm').congr fun x hx =>
          hsame x (hfree x (stored_piece (.big m' hm' hx)))
            fun hnode => (onlyBigList hheads hinv hnode).big m' hm' hx
    case blockList =>
      exact hst.heap.blockList.congr fun x hx => hsame x (hfree x (stored_piece (.blockList hx)))
        (onlyBlockList hheads hinv hx).bigList
    case bigList => exact hring

/-- **`big_alloc`** in memory. -/
theorem bigAlloc_simulates (hheads : Heads lists regions m)
    (hinv : HeapInv (KeptFrames dir regions m) h out []) (hst : Stores lists dir h t)
    (hsize : BigSize size) :
    Run.Simulates (SameAlloc lists dir out t) (Ahos.bigAlloc h size) (bigAlloc lists t size) := by
  have hspec := bigAlloc_spec (keptFrames_keeper dir regions m) hinv hsize
  obtain ⟨p, pfa, halloc, hframes⟩ := hinv.frames.alloc (size / 4096)
  have hst₁ := hst.setPfa pfa
  have hpfa : t.pfa = h.machine.pfa := by rw [hst.shadow.same]
  simp only [Ahos.bigAlloc, bigAlloc, hpfa, halloc, Run.ok_bind] at hspec ⊢
  by_cases hp : p = badPage
  · simp only [if_pos hp]
    exact .ok ⟨rfl, hst₁, fun _ _ => rfl⟩
  · simp only [if_neg hp] at hspec ⊢
    rw [if_neg hp] at hframes
    have hinv₁ : HeapInv (KeptFrames dir regions m)
        { h with machine := { h.machine with pfa := pfa } } out [(p, size / 4096)] :=
      ⟨hframes, hinv.blocks, hinv.bigs, hinv.areas⟩
    have hsmall : SmallSize (roundedSize sizeofAhaBigMeta) := by
      rw [roundedSize_bigMeta]
      exact ⟨4, by omega, by omega, rfl⟩
    have hsim := (smallAlloc_simulates hheads hinv₁ hst₁ hsmall).and
      (smallAlloc_spec (keptFrames_keeper dir regions m) hinv₁ hsmall)
    generalize Ahos.smallAlloc { h with machine := { h.machine with pfa := pfa } }
      (roundedSize sizeofAhaBigMeta) = x at hsim hspec ⊢
    generalize smallAlloc lists { t with pfa := pfa } (roundedSize sizeofAhaBigMeta) = y at hsim ⊢
    cases hsim with
    | error e => exact .error e
    | @ok r r' hr =>
      obtain ⟨addr, h₂⟩ := r
      obtain ⟨addr', t₂⟩ := r'
      obtain ⟨⟨-, hinv₂⟩, ⟨hptr, hst₂, hkeeps⟩⟩ := hr
      simp only at hptr hst₂ hkeeps hinv₂
      subst hptr
      simp only [Run.ok_bind] at hspec ⊢
      by_cases haddr : addr' = 0
      · -- there is no memory for the metadata
        simp only [if_pos haddr] at hinv₂ hspec ⊢
        obtain ⟨pfa₂, hfree, -⟩ := hinv₂.frames.release
        have hpfa₂ : t₂.pfa = h₂.machine.pfa := by rw [hst₂.shadow.same]
        rw [hpfa₂, hfree]
        exact .ok ⟨rfl, hst₂.setPfa pfa₂, hkeeps⟩
      · simp only [if_neg haddr, roundedSize_bigMeta] at hinv₂ hspec ⊢
        obtain ⟨mem, hlink, hat, hshadow, hkeeps₂⟩ :=
          linkMeta_spec ⟨addr', size, p⟩ hheads hinv₂ hst₂
        have hrun := hinv₂.frames.frames.held.run_below
        have hend : p + 4096 * (size / 4096) ≤ 0xffc00000 := hrun (p, size / 4096) (by simp)
        have hsim := mapFrames_shadow hinv₂.frames.frames.paging hshadow hend
        simp only at hlink
        rw [hlink, Run.ok_bind]
        generalize mapFrames h₂.machine p (size / 4096) = x at hsim hspec ⊢
        generalize mapFrames { t₂ with mem := mem } p (size / 4096) = y at hsim ⊢
        cases hsim with
        | error e => exact .error e
        | @ok s₃ t₃ hcall =>
          have hinv₃ := hspec.1 _ rfl
          simp only [if_neg (show p ≠ 0 from hp)] at hinv₃
          obtain ⟨hshadow₃, hat₃, hkeeps₃⟩ := Stores.paging hheads hinv₃
            (hat.machine s₃) hinv₃.blocks (fun x hx => own_stored hinv₃ hx) hcall
          exact .ok ⟨rfl, ⟨hshadow₃, hat₃⟩, hkeeps.trans (hkeeps₂.trans
            (hkeeps₃.mono fun a ha => List.mem_cons_of_mem _ ha))⟩

/-- **`kmalloc`** in memory does what it does on the heap. -/
theorem kmalloc_simulates (hheads : Heads lists regions m)
    (hinv : HeapInv (KeptFrames dir regions m) h out []) (hst : Stores lists dir h t) {n : ℕ}
    (hn : n ≤ 2 ^ 31) :
    Run.Simulates (SameAlloc lists dir out t) (Ahos.kmalloc h n) (kmalloc lists t n) := by
  unfold Ahos.kmalloc kmalloc
  rw [roundedSize_eq hn]
  split_ifs with hzero hbig
  · exact .ok ⟨rfl, hst, fun _ _ => rfl⟩
  · rcases allocSize_cases hn with ⟨-, hlt⟩ | ⟨hsize, -⟩
    · omega
    · exact bigAlloc_simulates hheads hinv hst hsize
  · rcases allocSize_cases hn with ⟨hsize, -⟩ | ⟨-, hle⟩
    · exact smallAlloc_simulates hheads hinv hst hsize
    · omega

end Alloc

end Ahos.Raw
