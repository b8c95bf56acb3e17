import Ahos.Mem.Kmalloc.RawAlloc
import Ahos.Mem.Kmalloc.Release

/-!
# `kfree` in memory

On a machine that stores a heap, `kfree` of any pointer does what it does on the heap: it stops
with the same panic, or it leaves a machine that stores the heap that results. The areas of the
other callers are not written.
-/

namespace Ahos

theorem ShadowCall.setPfa {dir : ℕ} {s t s' t' : Machine} (h : ShadowCall dir s t s' t')
    (pfa : PfaMeta) : ShadowCall dir s t { s' with pfa := pfa } { t' with pfa := pfa } := by
  refine ⟨?_, h.call⟩
  conv_lhs => rw [h.same]

namespace Raw

section Free

variable {lists : AhaLists} {dir : ℕ} {regions : List (ℕ × ℕ)} {m : ℕ → Option (ℕ × ℕ)} {h : Heap}
  {out pending : List (ℕ × ℕ)} {t : Machine} {ptr : ℕ}

/-! ## The searches -/

/-- **The search for the block** of a pointer. -/
theorem findBlock_eq (hheads : Heads lists regions m)
    (hinv : HeapInv (KeptFrames dir regions m) h out pending) (hst : Stores lists dir h t)
    (ptr : ℕ) :
    findBlock lists t ptr = .ok ((h.ahaBlockList.find? fun b =>
      ptr ≥ b.firstPtr ∧ ptr < Word32.add b.addr 4096).map AhaBlock.addr) := by
  have ht := direct_own hheads hinv hst.shadow
  have hlist := hst.heap.blockList
  rw [findBlock, listEmpty_eq ht hlist, Run.ok_bind]
  by_cases hempty : h.ahaBlockList = []
  · simp [blockNodes, hempty]
  · have hne : blockNodes h ≠ [] := by simpa [blockNodes] using hempty
    simp only [hne, decide_false, Bool.false_eq_true, if_false,
      ht.load (hlist.words _ (List.mem_cons_self ..)).2, Run.ok_bind]
    refine listForEach_records (p := fun b => ptr ≥ b.firstPtr ∧ ptr < Word32.add b.addr 4096)
      (f := AhaBlock.addr) ht hlist
      (own_lt hheads hinv) fun b hb => ?_
    have hbelow := (hinv.blocks b hb).below
    have hown : Own lists h.blockFrames (firstPtr b.addr) :=
      own_blockField hinv hb (.inl (by unfold firstPtr; omega))
    simp only [blockOf_blockNode (show b.addr + 16 < 4294967296 by omega), ht.load hown,
      Run.ok_bind, (hst.heap.blocks b hb).first]
    rfl

/-- The address of the metadata of a big allocation. -/
theorem meta_addr (hinv : HeapInv (KeptFrames dir regions m) h out pending) {bigMeta : AhaBigMeta}
    (hm : bigMeta ∈ h.ahaBigList) :
    bigMeta.addr ≠ 0 ∧ bigMeta.addr + 16 < 4294967296 := by
  obtain ⟨b, hb, hlo, hhi⟩ := meta_block hinv (hinv.meta_used hm)
  have := (hinv.blocks b hb).below
  simp only at hlo hhi
  omega

/-- **The search for the big allocation** at a pointer. -/
theorem findBig_eq (hheads : Heads lists regions m)
    (hinv : HeapInv (KeptFrames dir regions m) h out pending) (hst : Stores lists dir h t)
    (ptr : ℕ) :
    findBig lists t ptr =
      .ok ((h.ahaBigList.find? fun bigMeta => bigMeta.ptr = ptr).map AhaBigMeta.addr) := by
  have ht := direct_own hheads hinv hst.shadow
  have hlist := hst.heap.bigList
  rw [findBig, listEmpty_eq ht hlist, Run.ok_bind]
  by_cases hempty : h.ahaBigList = []
  · simp [bigNodes, hempty]
  · have hne : bigNodes h ≠ [] := by simpa [bigNodes] using hempty
    simp only [hne, decide_false, Bool.false_eq_true, if_false,
      ht.load (hlist.words _ (List.mem_cons_self ..)).2, Run.ok_bind]
    refine listForEach_records (p := fun m => m.ptr = ptr) (f := AhaBigMeta.addr) ht hlist
      (own_lt hheads hinv) fun bigMeta hm => ?_
    have haddr := (meta_addr hinv hm).2
    have hown : Own lists h.blockFrames (metaPtr bigMeta.addr) :=
      own_stored hinv (.big bigMeta hm (by unfold BigField metaPtr; omega))
    simp only [metaOf_metaNode (show bigMeta.addr + 8 < 4294967296 by omega), ht.load hown,
      Run.ok_bind, (hst.heap.bigs bigMeta hm).ptr]
    rfl

/-! ## Release -/

/-- A pointer into a block. -/
theorem kfree_block_simulates (hheads : Heads lists regions m)
    (hinv : HeapInv (KeptFrames dir regions m) h out pending) (hst : Stores lists dir h t)
    (calls : ℕ) (hptr : ptr ≠ 0) {i : ℕ} (hfind : (h.ahaBlockList.findIdx? fun b =>
      ptr ≥ b.firstPtr ∧ ptr < Word32.add b.addr 4096) = some i) :
    Run.Simulates (fun h' t' => Stores lists dir h' t' ∧ KeepsAreas out t.mem t'.mem)
      (Ahos.kfree h ptr) (kfree lists (calls + 1) t ptr) := by
  obtain ⟨b, hget, hblock, -⟩ := find?_of_findIdx? hfind
  rw [Ahos.kfree, if_neg hptr, hfind, kfree, if_neg hptr, findBlock_eq hheads hinv hst, Run.ok_bind,
    hblock]
  exact releaseChunk_simulates hheads hinv hst hget ptr

/-- The metadata of a big allocation is unlinked. -/
theorem unlinkMeta_spec {h' : Heap} (hheads : Heads lists regions m)
    (hinv : HeapInv (KeptFrames dir regions m) h' out pending) {k : ℕ} {bigMeta : AhaBigMeta}
    (hget : h.ahaBigList[k]? = some bigMeta) (hblocks : h'.ahaBlockList = h.ahaBlockList)
    (hbigs : h'.ahaBigList = h.ahaBigList.eraseIdx k)
    (hshadow : Shadow dir h'.machine t) (hat : HeapAt lists t.mem h) :
    ∃ mem, listDel t (metaNode bigMeta.addr) = .ok { t with mem := mem } ∧
      Stores lists dir h' { t with mem := mem } ∧ KeepsAreas out t.mem mem := by
  have hframes : h'.blockFrames = h.blockFrames := by rw [Heap.blockFrames, hblocks, Heap.blockFrames]
  obtain ⟨hk, rfl⟩ := List.getElem?_eq_some_iff.mp hget
  -- the list with the node of the metadata, and without it
  have hsplit : bigNodes h = (h.ahaBigList.take k).map (fun m => metaNode m.addr) ++
      metaNode h.ahaBigList[k].addr :: (h.ahaBigList.drop (k + 1)).map fun m => metaNode m.addr := by
    rw [bigNodes, ← List.map_cons (f := fun m : AhaBigMeta => metaNode m.addr), ← List.map_append]
    simp
  have herase : bigNodes h' = (h.ahaBigList.take k).map (fun m => metaNode m.addr) ++
      (h.ahaBigList.drop (k + 1)).map fun m => metaNode m.addr := by
    rw [bigNodes, hbigs, List.eraseIdx_eq_take_drop_succ, List.map_append]
  have ht := direct_own hheads hinv hshadow
  have hlist := hat.bigList
  rw [hsplit, ← hframes] at hlist
  obtain ⟨mem, hdel, hring, hout⟩ := listDel_spec ht hlist
  rw [← herase] at hring hout
  obtain ⟨hshadow', hkeeps⟩ := shadow_write [] hheads hinv hshadow
    fun x hx => hout x fun hnode => hx (by simpa using stored_piece (.bigList hnode))
  have hsub : ∀ m' ∈ h'.ahaBigList, m' ∈ h.ahaBigList := fun m' hm' =>
    List.mem_of_mem_eraseIdx (hbigs ▸ hm')
  refine ⟨mem, hdel, ⟨hshadow', ?_⟩, hkeeps⟩
  constructor
  case blocks =>
    exact fun b hb => (hat.blocks b (hblocks ▸ hb)).congr (hinv.blocks b hb) fun x hx =>
      hout x (onlyBlock hheads hinv hb hx).bigList
  case bigs =>
    exact fun m' hm' => (hat.bigs m' (hsub m' hm')).congr fun x hx =>
      hout x fun hnode => (onlyBigList hheads hinv hnode).big m' hm' hx
  case blockList =>
    have hnodes : blockNodes h' = blockNodes h := by rw [blockNodes, hblocks, blockNodes]
    rw [hnodes, hframes]
    exact hat.blockList.congr fun x hx => hout x
      (onlyBlockList hheads hinv (by rw [hnodes]; exact hx)).bigList
  case bigList => exact hring

/-- The pointer of a big allocation. -/
theorem kfree_big_simulates (hheads : Heads lists regions m)
    (hinv : HeapInv (KeptFrames dir regions m) h out []) (hst : Stores lists dir h t) (calls : ℕ)
    {k : ℕ} {bigMeta : AhaBigMeta} (hget : h.ahaBigList[k]? = some bigMeta) :
    Run.Simulates (fun h' t' => Stores lists dir h' t' ∧
        KeepsAreas (out.erase (bigMeta.ptr, bigMeta.size)) t.mem t'.mem)
      (Ahos.kfree h bigMeta.ptr) (kfree lists (calls + 2) t bigMeta.ptr) := by
  have hk := keptFrames_keeper dir regions m
  have hm := List.mem_of_getElem? hget
  have houtstanding := hinv.big_outstanding hm
  obtain ⟨hne, hblock, hfind⟩ := Ahos.findBig hk hinv hget
  obtain ⟨hmeta, hmeta'⟩ := meta_addr hinv hm
  have ht := direct_own hheads hinv hst.shadow
  have hat := hst.heap.bigs bigMeta hm
  have hown : ∀ x, BigField bigMeta x → Own lists h.blockFrames x := fun x hx =>
    own_stored hinv (.big bigMeta hm hx)
  have hblock' : (h.ahaBlockList.find? fun b =>
      bigMeta.ptr ≥ b.firstPtr ∧ bigMeta.ptr < Word32.add b.addr 4096) = none := by
    rw [List.find?_eq_bind_findIdx?_getElem?, hblock]
    rfl
  have hfind' : (h.ahaBigList.find? fun m' => m'.ptr = bigMeta.ptr) = some bigMeta := by
    rw [List.find?_eq_bind_findIdx?_getElem?, hfind]
    exact hget
  -- both sides after the searches
  rw [Ahos.kfree, if_neg hne, hblock]
  simp only [hfind]
  rw [bigFree_eq hget, kfree, if_neg hne, findBlock_eq hheads hinv hst, Run.ok_bind, hblock',
    Option.map_none]
  simp only [findBig_eq hheads hinv hst, hfind', Run.ok_bind, Option.map_some, if_neg hmeta]
  rw [ht.load (hown _ (by unfold BigField; omega)), Run.ok_bind, hat.size,
    ht.load (hown _ (by unfold BigField metaPtr; omega)), Run.ok_bind, hat.ptr]
  -- the frames are unmapped and released
  obtain ⟨hlt, hgetk⟩ := List.getElem?_eq_some_iff.mp hget
  have hperm := (List.getElem_cons_eraseIdx_perm hlt).symm.map
    fun m : AhaBigMeta => (m.ptr, m.size / 4096)
  rw [hgetk] at hperm
  have hframes : KeptFrames dir regions m h.machine ((bigMeta.ptr, bigMeta.size / 4096) ::
      (h.blockFrames ++ (h.ahaBigList.eraseIdx k).map fun m => (m.ptr, m.size / 4096))) [] :=
    hk.perm ((hperm.append_left h.blockFrames).trans List.perm_middle) hinv.frames
  have hrun : bigMeta.ptr + 4096 * (bigMeta.size / 4096) ≤ 0xffc00000 :=
    hframes.frames.held.run_below (bigMeta.ptr, bigMeta.size / 4096) (by simp)
  refine ((unmapFrames_shadow hinv.frames.frames.paging hst.shadow hrun).and
    (hk.unmap hframes)).bind ?_
  rintro s₁ t₁ ⟨hs₁, hcall⟩
  obtain ⟨pfa, hfree, hs₂⟩ := hk.free hs₁
  have hpfa : t₁.pfa = s₁.pfa := by rw [hcall.same]
  rw [hpfa, hfree, Run.ok_bind, Run.ok_bind]
  have hareas := hinv.areas.trans ((List.perm_cons_erase houtstanding).append_left h.metaAreas)
  have hinv₁ : HeapInv (KeptFrames dir regions m)
      ⟨{ s₁ with pfa := pfa }, h.ahaBlockList, h.ahaBigList.eraseIdx k⟩
      ((bigMeta.addr, 16) :: out.erase (bigMeta.ptr, bigMeta.size)) [] := by
    refine ⟨hs₂, hinv.blocks, fun m hm => hinv.bigs m (List.mem_of_mem_eraseIdx hm), ?_⟩
    have := areas_eraseIdx hlt (by rw [hgetk]; exact hareas)
    rwa [hgetk] at this
  have hstored : ∀ x, Stored lists h x → Own lists h.blockFrames x := fun x hx =>
    own_stored hinv hx
  obtain ⟨hshadow, hat₁, hkeeps₁⟩ := Stores.paging hheads hinv₁ hst.heap hinv.blocks hstored
    (hcall.setPfa pfa)
  obtain ⟨mem, hdel, hst₂, hkeeps₂⟩ :=
    unlinkMeta_spec hheads hinv₁ hget rfl rfl hshadow hat₁
  simp only at hdel ⊢
  rw [hdel, Run.ok_bind]
  -- the metadata is a chunk
  obtain ⟨i, j, b, hchunk⟩ := exists_usedChunk (hinv.meta_used hm)
  have hsearch := findBlock_chunk hk hinv₁ hchunk.block hchunk.index
  rw [← hchunk.start] at hsearch
  refine (kfree_block_simulates hheads hinv₁ hst₂ calls hmeta hsearch).imp ?_
  rintro h' t' ⟨hst', hkeeps⟩
  have htail : ∀ a ∈ out.erase (bigMeta.ptr, bigMeta.size),
      a ∈ (bigMeta.addr, 16) :: out.erase (bigMeta.ptr, bigMeta.size) :=
    fun a ha => List.mem_cons_of_mem _ ha
  exact ⟨hst', (hkeeps₁.trans (hkeeps₂.trans hkeeps)).mono htail⟩

/-- **`kfree` in memory** does what it does on the heap, for every pointer: it stops with the same
panic, or it returns, and what the callers hold at other addresses is as it was. -/
theorem kfree_simulates (hheads : Heads lists regions m)
    (hinv : HeapInv (KeptFrames dir regions m) h out []) (hst : Stores lists dir h t) (calls : ℕ)
    (ptr : ℕ) :
    Run.Simulates (fun h' t' => Stores lists dir h' t' ∧
        ∀ a ∈ out, a.1 ≠ ptr → KeepsAreas [a] t.mem t'.mem)
      (Ahos.kfree h ptr) (kfree lists (calls + 2) t ptr) := by
  have hkeep : ∀ {out' mem'}, KeepsAreas out' t.mem mem' → (∀ a ∈ out, a.1 ≠ ptr → a ∈ out') →
      ∀ a ∈ out, a.1 ≠ ptr → KeepsAreas [a] t.mem mem' := by
    intro out' mem' hkeeps hsub a ha hne
    refine hkeeps.mono fun a' ha' => ?_
    rw [List.mem_singleton.mp ha']
    exact hsub a ha hne
  by_cases hzero : ptr = 0
  · rw [Ahos.kfree, kfree, if_pos hzero, if_pos hzero]
    exact .error _
  cases hblock : h.ahaBlockList.findIdx? fun b =>
      ptr ≥ b.firstPtr ∧ ptr < Word32.add b.addr 4096 with
  | some i =>
    exact (kfree_block_simulates hheads hinv hst (calls + 1) hzero hblock).imp
      fun h' t' hr => ⟨hr.1, hkeep hr.2 fun a ha _ => ha⟩
  | none =>
    cases hbig : h.ahaBigList.findIdx? fun bigMeta => bigMeta.ptr = ptr with
    | some k =>
      obtain ⟨hk, hp, -⟩ := List.findIdx?_eq_some_iff_getElem.mp hbig
      rw [decide_eq_true_eq] at hp
      subst hp
      refine (kfree_big_simulates hheads hinv hst calls (List.getElem?_eq_getElem hk)).imp
        fun h' t' hr => ⟨hr.1, hkeep hr.2 fun a ha hne => ?_⟩
      exact (List.mem_erase_of_ne fun heq => hne (congrArg Prod.fst heq)).mpr ha
    | none =>
      have hblock' : (h.ahaBlockList.find? fun b =>
          ptr ≥ b.firstPtr ∧ ptr < Word32.add b.addr 4096) = none := by
        rw [List.find?_eq_bind_findIdx?_getElem?, hblock]
        rfl
      have hbig' : (h.ahaBigList.find? fun bigMeta => bigMeta.ptr = ptr) = none := by
        rw [List.find?_eq_bind_findIdx?_getElem?, hbig]
        rfl
      rw [Ahos.kfree, if_neg hzero, hblock, kfree, if_neg hzero, findBlock_eq hheads hinv hst,
        Run.ok_bind, hblock']
      simp only [hbig, Option.map_none, findBig_eq hheads hinv hst, hbig', Run.ok_bind]
      exact .error _

end Free

end Raw

end Ahos
