import Ahos.Mem.Kmalloc.Sizes
import Ahos.Mem.Kmalloc.Stores

/-!
# Blocks in memory

The functions of the allocator that work on one block, on a machine that stores the heap:
a chunk is taken or released, the list of blocks is searched, and a new block is written
into its page frame and linked. Each does in memory what it does to the heap, and leaves the
areas of the callers as they are.
-/

namespace Ahos.Raw

/-! ## Records around a node -/

theorem blockOf_blockNode {block : ℕ} (h : block + 16 < 4294967296) :
    blockOf (blockNode block) = block := by
  rw [blockOf, blockNode, Word32.sub_of_le (by omega) (by omega)]
  omega

theorem metaOf_metaNode {bigMeta : ℕ} (h : bigMeta + 8 < 4294967296) :
    metaOf (metaNode bigMeta) = bigMeta := by
  rw [metaOf, metaNode, Word32.sub_of_le (by omega) (by omega)]
  omega

/-! ## Marking -/

section Mark

variable {lists : AhaLists} {dir : ℕ} {regions : List (ℕ × ℕ)} {m : ℕ → Option (ℕ × ℕ)} {h : Heap}
  {out pending : List (ℕ × ℕ)} {t : Machine} {i j : ℕ} {b b' : AhaBlock} {mem' : ℕ → ℕ}

/-- The nodes of the blocks depend on the addresses only. -/
theorem blockNodes_set (hget : h.ahaBlockList[i]? = some b) (haddr : b'.addr = b.addr) :
    blockNodes { h with ahaBlockList := h.ahaBlockList.set i b' } = blockNodes h := by
  obtain ⟨hi, rfl⟩ := List.getElem?_eq_some_iff.mp hget
  simp only [blockNodes, List.map_set, haddr]
  rw [← List.getElem_map (fun b : AhaBlock => blockNode b.addr) (h := by simpa),
    List.set_getElem_self]

/-- Changing the fields of one block. -/
theorem HeapAt.set (hheads : Heads lists regions m)
    (hinv : HeapInv (KeptFrames dir regions m) h out pending) (hat : HeapAt lists t.mem h)
    (hget : h.ahaBlockList[i]? = some b) (haddr : b'.addr = b.addr) (hb' : BlockAt mem' b')
    (hsame : ∀ x, ¬ BlockField b x → mem' x = t.mem x) :
    HeapAt lists mem' { h with ahaBlockList := h.ahaBlockList.set i b' } := by
  have hb := List.mem_of_getElem? hget
  have honly := fun x (hx : BlockField b x) => onlyBlock hheads hinv hb hx
  have hframes : Heap.blockFrames { h with ahaBlockList := h.ahaBlockList.set i b' } =
      h.blockFrames := map_addr_set hget haddr
  constructor
  case blocks =>
    intro b₂ hb₂
    simp only at hb₂
    obtain ⟨k, hk⟩ := List.mem_iff_getElem?.mp hb₂
    rw [List.getElem?_set] at hk
    split_ifs at hk with hik
    · obtain rfl := Option.some.inj hk
      exact hb'
    · -- another position holds another block
      have hmem := List.mem_of_getElem? hk
      refine (hat.blocks b₂ hmem).congr (hinv.blocks b₂ hmem) fun x hx => hsame x fun hxb => ?_
      obtain rfl := (honly x hxb).block b₂ hmem hx
      have hpw := List.pairwise_iff_getElem.mp (pairwise_blocks hinv)
      obtain ⟨hi, hgeti⟩ := List.getElem?_eq_some_iff.mp hget
      obtain ⟨hk', hgetk⟩ := List.getElem?_eq_some_iff.mp hk
      rcases Nat.lt_or_gt_of_ne hik with hlt | hlt
      · have := hpw i k hi hk' hlt
        rw [hgeti, hgetk] at this
        simp only [Apart] at this
        omega
      · have := hpw k i hk' hi hlt
        rw [hgeti, hgetk] at this
        simp only [Apart] at this
        omega
  case bigs =>
    exact fun bigMeta hm => (hat.bigs bigMeta hm).congr fun x hx => hsame x fun hxb =>
      (honly x hxb).big bigMeta hm hx
  case blockList =>
    rw [blockNodes_set hget haddr, hframes]
    exact hat.blockList.congr fun x hx => hsame x fun hxb => (honly x hxb).blockList hx
  case bigList =>
    rw [hframes]
    exact hat.bigList.congr fun x hx => hsame x fun hxb => (honly x hxb).bigList hx

/-- The fields of a block belong to the allocator. -/
theorem own_blockField (hinv : HeapInv (KeptFrames dir regions m) h out pending)
    (hb : b ∈ h.ahaBlockList) {x : ℕ} (hx : BlockField b x) : Own lists h.blockFrames x :=
  own_piece hinv ⟨_, block_piece hb, hx.within⟩

/-- A chunk is marked in memory. -/
theorem stores_mark (hheads : Heads lists regions m)
    (hinv : HeapInv (KeptFrames dir regions m) h out pending) (hst : Stores lists dir h t)
    (hget : h.ahaBlockList[i]? = some b) (hj : j < b.totElts) (c : ChunkType) (n : ℕ) :
    Stores lists dir
        { h with ahaBlockList :=
            h.ahaBlockList.set i { b with chunkmap := b.chunkmap.set j c, nbFrees := n } }
        { t with mem := markedMem t.mem b.addr j (chunkCode c) n } ∧
      KeepsAreas out t.mem (markedMem t.mem b.addr j (chunkCode c) n) := by
  have hb := List.mem_of_getElem? hget
  have hbi := hinv.blocks b hb
  have hout : ∀ x, ¬ BlockField b x →
      markedMem t.mem b.addr j (chunkCode c) n x = t.mem x :=
    fun x hx => markedMem_of_not_field hbi hj hx
  obtain ⟨hshadow, hkeeps⟩ := shadow_write [] hheads hinv hst.shadow fun x hx =>
    hout x fun hxb => hx ⟨_, List.mem_append_left _ (block_piece hb), hxb.within⟩
  exact ⟨⟨hshadow, hst.heap.set hheads hinv hget rfl
    ((hst.heap.blocks b hb).mark hbi hj c n) hout⟩, hkeeps⟩

/-- What a call that returns a pointer has done: the same pointer is returned, the machine stores
the heap, and the areas of the callers are as they were. -/
structure SameAlloc (lists : AhaLists) (dir : ℕ) (out : List (ℕ × ℕ)) (t : Machine)
    (r : ℕ × Heap) (r' : ℕ × Machine) : Prop where
  ptr : r'.1 = r.1
  stores : Stores lists dir r.2 r'.2
  keeps : KeepsAreas out t.mem r'.2.mem

/-- **Taking a chunk** in memory. -/
theorem takeChunk_simulates (hheads : Heads lists regions m)
    (hinv : HeapInv (KeptFrames dir regions m) h out pending) (hst : Stores lists dir h t)
    (hget : h.ahaBlockList[i]? = some b) (hfrees : 0 < b.nbFrees) :
    Run.Simulates (SameAlloc lists dir out t) (Ahos.takeChunk h i) (takeChunk t b.addr) := by
  have hb := List.mem_of_getElem? hget
  have hbi := hinv.blocks b hb
  obtain ⟨j, hj, hfind, -⟩ := hbi.findFree_spec hfrees
  obtain ⟨hstores, hkeeps⟩ := stores_mark hheads hinv hst hget hj .used (Word32.sub b.nbFrees 1)
  simp only [Ahos.takeChunk, readCell, hget, Run.ok_bind, hfind]
  rw [takeChunk_eq (direct_own hheads hinv hst.shadow)
    (fun x hx => own_blockField hinv hb hx) hbi (hst.heap.blocks b hb) hj hfind]
  exact .ok ⟨rfl, hstores, hkeeps⟩

/-- **Releasing a chunk** in memory, at any address. -/
theorem releaseChunk_simulates (hheads : Heads lists regions m)
    (hinv : HeapInv (KeptFrames dir regions m) h out pending) (hst : Stores lists dir h t)
    (hget : h.ahaBlockList[i]? = some b) (ptr : ℕ) :
    Run.Simulates (fun h' t' => Stores lists dir h' t' ∧ KeepsAreas out t.mem t'.mem)
      (Ahos.releaseChunk h i ptr) (releaseChunk t b.addr ptr) := by
  have hb := List.mem_of_getElem? hget
  have hbi := hinv.blocks b hb
  have hat := hst.heap.blocks b hb
  have ht := direct_own hheads hinv hst.shadow
  have hown : ∀ x, BlockField b x → Own lists h.blockFrames x := fun x hx =>
    own_blockField hinv hb hx
  simp only [Ahos.releaseChunk, readCell, hget, Run.ok_bind]
  cases hfind : (List.range b.totElts).find? fun chunk => b.chunkPtr chunk = ptr with
  | none =>
    rw [releaseChunk_none ht hown hat hfind]
    exact .error _
  | some j =>
    have hj : j < b.totElts := List.mem_range.mp (List.mem_of_find?_eq_some hfind)
    obtain ⟨c, hcell⟩ : ∃ c, b.chunkmap[j]? = some c :=
      ⟨_, List.getElem?_eq_getElem (hbi.chunks ▸ hj)⟩
    simp only [hcell, Run.ok_bind]
    cases c with
    | free =>
      rw [releaseChunk_free ht hown hbi hat hfind hcell]
      exact .error _
    | used =>
      rw [releaseChunk_eq ht hown hbi hat hfind hcell]
      exact .ok (stores_mark hheads hinv hst hget hj .free (Word32.add b.nbFrees 1))

end Mark

/-! ## A new block -/

section New

variable {own : ℕ → Prop} {t : Machine} {b : AhaBlock}

/-- The memory after the fields of the header were written. -/
def headerMem (mem : ℕ → ℕ) (b : AhaBlock) : ℕ → ℕ :=
  Function.update (Function.update (Function.update (Function.update mem b.addr b.eltSize)
    (totElts b.addr) b.totElts) (nbFrees b.addr) b.nbFrees) (firstPtr b.addr) b.firstPtr

theorem headerMem_of_not_field {mem : ℕ → ℕ} {x : ℕ} (hx : ¬ BlockField b x) :
    headerMem mem b x = mem x := by
  have hne : x < b.addr ∨ b.addr + 16 ≤ x := by
    by_contra hin
    exact hx (.inl (by omega))
  simp only [headerMem, totElts, nbFrees, firstPtr, Function.update_apply]
  rw [if_neg (by omega), if_neg (by omega), if_neg (by omega), if_neg (by omega)]

/-- The fields are read back. -/
theorem headerMem_fields (mem : ℕ → ℕ) (b : AhaBlock) :
    headerMem mem b b.addr = b.eltSize ∧ headerMem mem b (totElts b.addr) = b.totElts ∧
      headerMem mem b (nbFrees b.addr) = b.nbFrees ∧
      headerMem mem b (firstPtr b.addr) = b.firstPtr := by
  simp [headerMem, totElts, nbFrees, firstPtr]

/-- The header is written before the list and the chunkmap. -/
theorem initBlock_eq (lists : AhaLists) (ht : Direct own t)
    (hown : ∀ x, BlockField b x → own x) (hnb : b.nbFrees = b.totElts)
    (hfirst : b.firstPtr = alignFirstPtr b.addr b.totElts) :
    Direct own { t with mem := headerMem t.mem b } ∧
      initBlock lists t b.addr b.eltSize b.totElts = (do
        let s ← listAdd { t with mem := headerMem t.mem b } (blockNode b.addr) lists.ahaBlockList
        (List.range b.totElts).foldlM
          (fun s i => s.storeByte (chunkmap b.addr + i) chunkFree) s) := by
  obtain ⟨addr, eltSize, tot, frees, first, chunks⟩ := b
  simp only at hnb hfirst
  subst hnb hfirst
  have hfield : ∀ x, addr ≤ x → x < addr + 16 → own x := fun x hlo hhi => hown x (.inl ⟨hlo, hhi⟩)
  have haddr := hfield addr (by omega) (by omega)
  have htot := hfield (totElts addr) (by unfold totElts; omega) (by unfold totElts; omega)
  have hfrees := hfield (nbFrees addr) (by unfold nbFrees; omega) (by unfold nbFrees; omega)
  have hptr := hfield (firstPtr addr) (by unfold firstPtr; omega) (by unfold firstPtr; omega)
  have ht₁ := ht.update haddr eltSize
  have ht₂ := ht₁.update htot frees
  have ht₃ := ht₂.update hfrees frees
  refine ⟨ht₃.update hptr _, ?_⟩
  rw [initBlock, ht.store haddr, Run.ok_bind, ht₁.store htot, Run.ok_bind, ht₂.store hfrees,
    Run.ok_bind, ht₃.store hptr, Run.ok_bind]
  rfl

/-- The loop of `memset` over the chunkmap. -/
theorem clearChunks_spec (ht : Direct own t) {block n : ℕ}
    (hown : ∀ i < n, own (WordMemory.wordAddr (chunkmap block + i))) :
    ∃ mem, (List.range n).foldlM (fun s i => s.storeByte (chunkmap block + i) chunkFree) t =
        .ok { t with mem := mem } ∧
      (∀ i < n, WordMemory.byte mem (chunkmap block + i) = chunkFree) ∧
      ∀ x, (∀ i < n, x ≠ WordMemory.wordAddr (chunkmap block + i)) → mem x = t.mem x := by
  induction n with
  | zero => exact ⟨t.mem, rfl, by simp, fun _ _ => rfl⟩
  | succ n ih =>
    obtain ⟨mem, hfold, hbytes, hout⟩ := ih fun i hi => hown i (by omega)
    have hdirect : Direct own { t with mem := mem } := by
      refine ht.of_mem fun x hx => hout x ?_
      rintro i hi rfl
      exact hx (hown i (by omega))
    refine ⟨WordMemory.setByte mem (chunkmap block + n) chunkFree, ?_, fun i hi => ?_,
      fun x hx => ?_⟩
    · rw [List.range_succ, List.foldlM_append, hfold, Run.ok_bind, List.foldlM_cons,
        hdirect.storeByte (hown n (by omega))]
      rfl
    · rw [WordMemory.byte_setByte (by decide)]
      split_ifs with heq
      · rfl
      · exact hbytes i (by omega)
    · rw [WordMemory.setByte_of_ne (hx n (by omega)), hout x fun i hi => hx i (by omega)]

end New

section Init

variable {lists : AhaLists} {dir : ℕ} {regions : List (ℕ × ℕ)} {m : ℕ → Option (ℕ × ℕ)}
  {out pending : List (ℕ × ℕ)} {s t : Machine} {b : AhaBlock} {blocks : List AhaBlock}
  {bigs : List AhaBigMeta}

theorem Own.mono {frames frames' : List (ℕ × ℕ)} (hsub : ∀ a ∈ frames, a ∈ frames') {x : ℕ}
    (hx : Own lists frames x) : Own lists frames' x :=
  hx.imp id fun ⟨a, ha, hi⟩ => ⟨a, hsub a ha, hi⟩

/-- The node of the first block is apart from the other nodes of the list. -/
theorem blockNode_apart (hheads : Heads lists regions m)
    (hinv : HeapInv (KeptFrames dir regions m) ⟨s, b :: blocks, bigs⟩ out pending) :
    ∀ node ∈ lists.ahaBlockList :: blockNodes ⟨s, blocks, bigs⟩,
      NodesApart (blockNode b.addr) node := by
  have hpos := (hinv.blocks b (List.mem_cons_self ..)).layout.1
  intro node hnode
  rcases List.mem_cons.mp hnode with rfl | hnode
  · have hpw := (List.pairwise_append.mp (pairwise_pieces hheads hinv)).1
    rw [pieces, List.pairwise_cons] at hpw
    have := hpw.1 (b.addr, 24 + b.totElts) (by simp)
    unfold AreasApart at this
    unfold NodesApart blockNode
    omega
  · obtain ⟨b', hb', rfl⟩ := List.mem_map.mp hnode
    have hpw := pairwise_blocks hinv
    rw [List.pairwise_cons] at hpw
    have := hpw.1 b' hb'
    simp only [Apart] at this
    unfold NodesApart blockNode
    omega

/-- **The new block is written** and linked in front of the list. -/
theorem initBlock_spec (hheads : Heads lists regions m)
    (hinv : HeapInv (KeptFrames dir regions m) ⟨s, b :: blocks, bigs⟩ out pending)
    (hfree : b.chunkmap = List.replicate b.totElts .free) (hnb : b.nbFrees = b.totElts)
    (hshadow : Shadow dir s t) (hat : HeapAt lists t.mem ⟨s, blocks, bigs⟩) :
    ∃ mem, initBlock lists t b.addr b.eltSize b.totElts = .ok { t with mem := mem } ∧
      HeapAt lists mem ⟨s, b :: blocks, bigs⟩ ∧
      ∀ x, ¬ InAreas (pieces lists ⟨s, b :: blocks, bigs⟩) x → mem x = t.mem x := by
  set h : Heap := ⟨s, b :: blocks, bigs⟩ with hh
  have hb : b ∈ h.ahaBlockList := List.mem_cons_self ..
  have hbi := hinv.blocks b hb
  have ht : Direct (Own lists h.blockFrames) t := direct_own hheads hinv hshadow
  have hmono : ∀ x, Own lists (Heap.blockFrames ⟨s, blocks, bigs⟩) x → Own lists h.blockFrames x :=
    fun x => Own.mono fun a ha => List.mem_cons_of_mem _ ha
  have hfield : ∀ x, BlockField b x → Own lists h.blockFrames x := fun x hx =>
    own_blockField hinv hb hx
  have honly := fun x (hx : BlockField b x) => onlyBlock hheads hinv hb hx
  -- the header
  obtain ⟨ht₄, hinit⟩ := initBlock_eq lists ht hfield hnb hbi.first
  -- the list
  have hlist₀ : ListAt (Own lists h.blockFrames) t.mem lists.ahaBlockList
      (blockNodes ⟨s, blocks, bigs⟩) := ListAt.mono hat.blockList hmono
  have hlist : ListAt (Own lists h.blockFrames) (headerMem t.mem b) lists.ahaBlockList
      (blockNodes ⟨s, blocks, bigs⟩) := by
    refine hlist₀.congr fun x hx => headerMem_of_not_field fun hxb => (honly x hxb).blockList ?_
    obtain ⟨node, hnode, hx⟩ := hx
    refine ⟨node, ?_, hx⟩
    rcases List.mem_cons.mp hnode with rfl | hnode
    · exact List.mem_cons_self ..
    · exact List.mem_cons_of_mem _ (List.mem_cons_of_mem _ hnode)
  have hnode : Own lists h.blockFrames (blockNode b.addr) ∧
      Own lists h.blockFrames (blockNode b.addr + 4) :=
    ⟨own_piece hinv ⟨_, block_piece hb, by unfold blockNode; simp only; omega⟩,
      own_piece hinv ⟨_, block_piece hb, by unfold blockNode; simp only; omega⟩⟩
  obtain ⟨mem₁, hadd, hring, hout₁⟩ := listAdd_spec ht₄ hlist hnode (blockNode_apart hheads hinv)
  have hnodes : ∀ x, NodeWord (blockNode b.addr :: lists.ahaBlockList ::
      blockNodes ⟨s, blocks, bigs⟩) x → NodeWord (lists.ahaBlockList :: blockNodes h) x := by
    rintro x ⟨node, hnode, hx⟩
    refine ⟨node, ?_, hx⟩
    simp only [List.mem_cons] at hnode ⊢
    simp only [hh, blockNodes, List.map_cons, List.mem_cons] at hnode ⊢
    tauto
  -- the chunkmap
  have hchunk : ∀ i < b.totElts, BlockField b (WordMemory.wordAddr (chunkmap b.addr + i)) :=
    fun i hi => blockField_chunk hbi hi
  have ht₅ : Direct (Own lists h.blockFrames) { t with mem := mem₁ } := by
    refine ht₄.of_mem fun x hx => hout₁ x fun hnode => hx ?_
    exact own_stored hinv (.blockList (hnodes x hnode))
  obtain ⟨mem₂, hclear, hbytes, hout₂⟩ := clearChunks_spec ht₅ fun i hi => hfield _ (hchunk i hi)
  have hsame₂ : ∀ x, ¬ BlockField b x → mem₂ x = mem₁ x := by
    refine fun x hx => hout₂ x ?_
    rintro i hi rfl
    exact hx (hchunk i hi)
  have hsame₁ : ∀ x, ¬ NodeWord (lists.ahaBlockList :: blockNodes h) x →
      mem₁ x = headerMem t.mem b x := fun x hx => hout₁ x fun hnode => hx (hnodes x hnode)
  have hsame : ∀ x, ¬ BlockField b x → ¬ NodeWord (lists.ahaBlockList :: blockNodes h) x →
      mem₂ x = t.mem x := fun x hxb hxn => by
    rw [hsame₂ x hxb, hsame₁ x hxn, headerMem_of_not_field hxb]
  have hheader : ∀ k < 16, mem₂ (b.addr + k) = headerMem t.mem b (b.addr + k) := by
    intro k hk
    have hxb : BlockField b (b.addr + k) := .inl ⟨by omega, by omega⟩
    refine (hout₂ _ fun i hi heq => ?_).trans (hsame₁ _ (honly _ hxb).blockList)
    have halign := hbi.align
    unfold WordMemory.wordAddr chunkmap sizeofAhaBlock at heq
    omega
  obtain ⟨helt, htotal, hfree₀, hstart⟩ := headerMem_fields t.mem b
  refine ⟨mem₂, ?_, ?_, fun x hx => hsame x (fun hxb => hx ⟨_, block_piece hb, hxb.within⟩)
    fun hxn => hx (stored_piece (.blockList hxn))⟩
  · rw [hinit, hadd, Run.ok_bind, hclear]
  · constructor
    case blocks =>
      intro b' hb'
      rcases List.mem_cons.mp hb' with rfl | hb'
      · refine ⟨(hheader 0 (by omega)).trans helt, (hheader 4 (by omega)).trans htotal,
          (hheader 8 (by omega)).trans hfree₀, (hheader 12 (by omega)).trans hstart,
          fun i c hc => ?_⟩
        rw [hfree, List.getElem?_replicate] at hc
        split_ifs at hc with hi
        obtain rfl := Option.some.inj hc
        exact hbytes i hi
      · have hmem : b' ∈ h.ahaBlockList := List.mem_cons_of_mem _ hb'
        refine (hat.blocks b' hb').congr (hinv.blocks b' hmem) fun x hx => hsame x (fun hxb => ?_)
          (onlyBlock hheads hinv hmem hx).blockList
        -- the other blocks are on other pages
        have heq := (honly x hxb).block b' hmem hx
        have hpw := pairwise_blocks hinv
        rw [List.pairwise_cons] at hpw
        have := hpw.1 b' hb'
        rw [heq] at this
        simp only [Apart] at this
        omega
    case bigs =>
      exact fun bigMeta hm => (hat.bigs bigMeta hm).congr fun x hx => hsame x
        (fun hxb => (honly x hxb).big bigMeta hm hx)
        fun hxn => (onlyBlockList hheads hinv hxn).big bigMeta hm hx
    case blockList =>
      exact hring.congr fun x hx => hsame₂ x fun hxb => (honly x hxb).blockList hx
    case bigList =>
      exact (ListAt.mono hat.bigList hmono).congr fun x hx => hsame x
        (fun hxb => (honly x hxb).bigList hx)
        fun hxn => (onlyBlockList hheads hinv hxn).bigList hx

end Init

end Ahos.Raw
