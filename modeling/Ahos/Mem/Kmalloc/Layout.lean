import Ahos.Mem.Kmalloc.Outside
import Ahos.Mem.Kmalloc.Raw
import Ahos.Mem.Paging.Shadow

/-!
# The heap in memory

What the memory holds when it stores a heap: every block has its header and its chunkmap at
the start of its page, every big allocation its metadata in a chunk, and the nodes in these
records form the two lists. The words of the heap are mapped to themselves and belong to
nobody else, so that the code reaches them and finds them as it left them.
-/

namespace Ahos.Raw

/-! ## Records -/

/-- The byte of the chunkmap for a state. -/
def chunkCode : ChunkType → ℕ
  | .free => chunkFree
  | .used => chunkUsed

/-- The header and the chunkmap of a block in memory, without its node. -/
structure BlockAt (mem : ℕ → ℕ) (b : AhaBlock) : Prop where
  eltSize : mem b.addr = b.eltSize
  tot : mem (totElts b.addr) = b.totElts
  frees : mem (nbFrees b.addr) = b.nbFrees
  first : mem (firstPtr b.addr) = b.firstPtr
  chunks : ∀ i c, b.chunkmap[i]? = some c →
    WordMemory.byte mem (chunkmap b.addr + i) = chunkCode c

/-- The metadata of a big allocation in memory, without its node. -/
structure BigAt (mem : ℕ → ℕ) (bigMeta : AhaBigMeta) : Prop where
  size : mem bigMeta.addr = bigMeta.size
  ptr : mem (metaPtr bigMeta.addr) = bigMeta.ptr

/-- The word at `x` holds fields of the block or its chunkmap. -/
def BlockField (b : AhaBlock) (x : ℕ) : Prop :=
  b.addr ≤ x ∧ x < b.addr + 16 ∨ b.addr + 24 ≤ x ∧ x < b.addr + 24 + b.totElts

/-- The word at `x` holds a field of the metadata. -/
def BigField (bigMeta : AhaBigMeta) (x : ℕ) : Prop := bigMeta.addr ≤ x ∧ x < bigMeta.addr + 8

theorem wordAddr_le (x : ℕ) : WordMemory.wordAddr x ≤ x ∧ x < WordMemory.wordAddr x + 4 := by
  unfold WordMemory.wordAddr
  omega

section Records

variable {mem mem' : ℕ → ℕ} {b : AhaBlock} {bigMeta : AhaBigMeta}

/-- The words of the chunkmap are fields of the block. -/
theorem blockField_chunk (hb : BlockInv b) {i : ℕ} (hi : i < b.totElts) :
    BlockField b (WordMemory.wordAddr (chunkmap b.addr + i)) := by
  have halign := hb.align
  unfold BlockField WordMemory.wordAddr chunkmap sizeofAhaBlock
  omega

/-- A block depends on its fields only. -/
theorem BlockAt.congr (hb : BlockInv b) (h : BlockAt mem b)
    (hsame : ∀ x, BlockField b x → mem' x = mem x) : BlockAt mem' b := by
  refine ⟨?_, ?_, ?_, ?_, fun i c hc => ?_⟩
  · rw [hsame _ (.inl ⟨by omega, by omega⟩), h.eltSize]
  · rw [hsame _ (.inl (by unfold totElts; omega)), h.tot]
  · rw [hsame _ (.inl (by unfold nbFrees; omega)), h.frees]
  · rw [hsame _ (.inl (by unfold firstPtr; omega)), h.first]
  · have hi := (List.getElem?_eq_some_iff.mp hc).1
    rw [hb.chunks] at hi
    rw [WordMemory.byte_congr (hsame _ (blockField_chunk hb hi)), h.chunks i c hc]

theorem BigAt.congr (h : BigAt mem bigMeta) (hsame : ∀ x, BigField bigMeta x → mem' x = mem x) :
    BigAt mem' bigMeta := by
  refine ⟨?_, ?_⟩
  · rw [hsame _ ⟨by omega, by omega⟩, h.size]
  · rw [hsame _ (by unfold BigField metaPtr; omega), h.ptr]

end Records

/-! ## The heap -/

/-- The word at `x` belongs to one of the two heads. -/
def HeadWord (lists : AhaLists) (x : ℕ) : Prop :=
  lists.ahaBlockList ≤ x ∧ x < lists.ahaBlockList + 8 ∨
    lists.ahaBigList ≤ x ∧ x < lists.ahaBigList + 8

/-- The words that the allocator keeps its records in: those of the two heads and of the page
frames of the blocks. -/
def Own (lists : AhaLists) (blocks : List (ℕ × ℕ)) (x : ℕ) : Prop :=
  HeadWord lists x ∨ Within blocks (4096 * (x / 4096))

/-- The nodes of the blocks. -/
def blockNodes (h : Heap) : List ℕ := h.ahaBlockList.map fun b => blockNode b.addr

/-- The nodes of the metadata. -/
def bigNodes (h : Heap) : List ℕ := h.ahaBigList.map fun m => metaNode m.addr

/-- The memory stores the heap. -/
structure HeapAt (lists : AhaLists) (mem : ℕ → ℕ) (h : Heap) : Prop where
  blocks : ∀ b ∈ h.ahaBlockList, BlockAt mem b
  bigs : ∀ m ∈ h.ahaBigList, BigAt mem m
  blockList : ListAt (Own lists h.blockFrames) mem lists.ahaBlockList (blockNodes h)
  bigList : ListAt (Own lists h.blockFrames) mem lists.ahaBigList (bigNodes h)

/-- The two heads are apart from each other, and lie on pages that are no page frames and that `m`
maps to themselves. -/
structure Heads (lists : AhaLists) (regions : List (ℕ × ℕ)) (m : ℕ → Option (ℕ × ℕ)) : Prop where
  apart : NodesApart lists.ahaBlockList lists.ahaBigList
  page : ∀ x, HeadWord lists x → x < 0xffc00000 ∧ NoFrame regions (4096 * (x / 4096)) ∧
    ∃ flags, m (4096 * (x / 4096)) = some (4096 * (x / 4096), flags)

section Own

variable {lists : AhaLists} {dir : ℕ} {regions : List (ℕ × ℕ)} {m : ℕ → Option (ℕ × ℕ)} {h : Heap}
  {out pending : List (ℕ × ℕ)} {t : Machine}

/-- The words of the allocator are mapped to themselves and are no words of the tables. -/
theorem own_spec (hheads : Heads lists regions m)
    (hinv : HeapInv (KeptFrames dir regions m) h out pending) {x : ℕ}
    (hx : Own lists h.blockFrames x) :
    x < 4294967296 ∧ translate h.machine.mem dir x = some x ∧ ¬ TableWord h.machine.mem dir x := by
  have hframes := hinv.frames.frames
  have hself : ∀ flags, walk h.machine.mem dir (4096 * (x / 4096)) =
      some (4096 * (x / 4096), flags) → translate h.machine.mem dir x = some x := by
    intro flags hwalk
    rw [translate_page, hwalk, Option.map_some, pageOffset_eq]
    simp only [Option.some.injEq]
    omega
  rcases hx with hx | hx
  · obtain ⟨hlt, hno, flags, hm⟩ := hheads.page x hx
    refine ⟨by omega, hself flags ?_, hframes.paging.inv.not_tableWord_of_no_frame ?_⟩
    · rw [hinv.frames.outside _ (by omega) (by omega) hno, hm]
    · rw [← noFrame_shape, hinv.frames.shape_eq]
      exact hno
  · have hw : Within (h.blockFrames ++ h.bigFrames) (4096 * (x / 4096)) :=
      within_append.mpr (.inl hx)
    have hlt := hframes.held.within_below (within_append.mpr (.inr hw))
    refine ⟨by omega, hself _ (hframes.mapped _ hw), ?_⟩
    exact hframes.paging.inv.not_tableWord (f := 4096 * (x / 4096))
      (within_append.mpr (.inr hw)) (by omega) (by omega)

/-- The code reaches the words of the allocator, whatever it writes into them. -/
theorem direct_own (hheads : Heads lists regions m)
    (hinv : HeapInv (KeptFrames dir regions m) h out pending) (hshadow : Shadow dir h.machine t) :
    Direct (Own lists h.blockFrames) t := by
  intro mem hmem x hx
  obtain ⟨hlt, htr, -⟩ := own_spec hheads hinv hx
  have hagree : AgreeTables dir h.machine.mem mem := by
    intro y hy
    rw [hmem y fun hown => (own_spec hheads hinv hown).2.2 hy]
    exact hshadow.agree y hy
  have hmode := hinv.frames.frames.mode
  have hsame := hshadow.same
  have hpg : t.cr0Pg = true ∧ t.cr3 = dir := by
    rw [hsame]
    exact hmode
  simp only [Machine.resolve, hpg.1, if_true, hpg.2,
    hagree.translate hinv.frames.frames.paging.inv.self hlt, htr]

end Own

/-! ## Changes -/

section Change

variable {lists : AhaLists} {mem mem' : ℕ → ℕ} {h : Heap}

/-- The words that store the heap. -/
inductive Stored (lists : AhaLists) (h : Heap) (x : ℕ) : Prop
  | block (b : AhaBlock) (hb : b ∈ h.ahaBlockList) (hx : BlockField b x)
  | big (bigMeta : AhaBigMeta) (hm : bigMeta ∈ h.ahaBigList) (hx : BigField bigMeta x)
  | blockList (hx : NodeWord (lists.ahaBlockList :: blockNodes h) x)
  | bigList (hx : NodeWord (lists.ahaBigList :: bigNodes h) x)

/-- The heap depends on its words only. -/
theorem HeapAt.congr (hb : ∀ b ∈ h.ahaBlockList, BlockInv b) (hat : HeapAt lists mem h)
    (hsame : ∀ x, Stored lists h x → mem' x = mem x) : HeapAt lists mem' h where
  blocks b hmem := (hat.blocks b hmem).congr (hb b hmem) fun x hx => hsame x (.block b hmem hx)
  bigs m hmem := (hat.bigs m hmem).congr fun x hx => hsame x (.big m hmem hx)
  blockList := hat.blockList.congr fun x hx => hsame x (.blockList hx)
  bigList := hat.bigList.congr fun x hx => hsame x (.bigList hx)

/-- What is stored depends on the two lists only. -/
theorem HeapAt.machine (hat : HeapAt lists mem h) (s : Machine) :
    HeapAt lists mem { h with machine := s } :=
  ⟨hat.blocks, hat.bigs, hat.blockList, hat.bigList⟩

theorem Stored.machine {s : Machine} {x : ℕ} (hx : Stored lists { h with machine := s } x) :
    Stored lists h x := by
  cases hx with
  | block b hb hx => exact .block b hb hx
  | big bigMeta hm hx => exact .big bigMeta hm hx
  | blockList hx => exact .blockList hx
  | bigList hx => exact .bigList hx

/-- A list in some words is a list in more words. -/
theorem ListAt.mono {own own' : ℕ → Prop} {head : ℕ} {nodes : List ℕ}
    (hl : ListAt own mem head nodes) (hown : ∀ x, own x → own' x) : ListAt own' mem head nodes :=
  ⟨hl.ring, fun node hnode => ⟨hown _ (hl.words node hnode).1, hown _ (hl.words node hnode).2⟩,
    hl.apart⟩

end Change

/-! ## Records do not overlap -/

/-- The areas of the two heads, of the headers with their chunkmaps, and of the metadata. -/
def pieces (lists : AhaLists) (h : Heap) : List (ℕ × ℕ) :=
  (lists.ahaBlockList, 8) :: (lists.ahaBigList, 8) ::
    (h.ahaBlockList.map (fun b => (b.addr, 24 + b.totElts)) ++ h.metaAreas)

section Pieces

variable {lists : AhaLists} {dir : ℕ} {regions : List (ℕ × ℕ)} {m : ℕ → Option (ℕ × ℕ)} {h : Heap}
  {out pending : List (ℕ × ℕ)}

/-- The page of a block is a frame of the regions. -/
theorem block_page (hinv : HeapInv (KeptFrames dir regions m) h out pending) {f : ℕ}
    (hf : Within h.blockFrames f) : ¬ NoFrame regions f :=
  hinv.frames.not_noFrame (within_append.mpr (.inr (within_append.mpr (.inl hf))))

/-- The pages of two blocks are different. -/
theorem pairwise_blocks (hinv : HeapInv (KeptFrames dir regions m) h out pending) :
    h.ahaBlockList.Pairwise fun b b' => Apart (b.addr, 1) (b'.addr, 1) := by
  have hpw := (List.pairwise_append.mp (hinv.pairwise (keptFrames_keeper dir regions m))).1
  rwa [Heap.blockFrames, List.pairwise_map] at hpw

/-- A word of a block lies on the page of the block. -/
theorem within_block (hinv : HeapInv (KeptFrames dir regions m) h out pending) {b : AhaBlock}
    (hb : b ∈ h.ahaBlockList) {x : ℕ} (hlo : b.addr ≤ x) (hhi : x < b.addr + 4096) :
    Within h.blockFrames (4096 * (x / 4096)) := by
  have halign := (hinv.blocks b hb).align
  refine ⟨(b.addr, 1), ?_, 0, by omega, by simp only; omega⟩
  exact List.mem_map_of_mem (f := fun b : AhaBlock => (b.addr, 1)) hb

/-- The metadata of a big allocation lies on the page of a block, behind its chunkmap. -/
theorem meta_block (hinv : HeapInv (KeptFrames dir regions m) h out pending) {a : ℕ × ℕ}
    (ha : a ∈ h.usedAreas) : ∃ b ∈ h.ahaBlockList,
      b.addr + 24 + b.totElts ≤ a.1 ∧ a.1 + a.2 ≤ b.addr + 4096 := by
  obtain ⟨b, hb, hchunk⟩ := List.mem_flatMap.mp ha
  obtain ⟨hlo, hhi⟩ := hinv.used_inside hb hchunk
  exact ⟨b, hb, hlo, hhi⟩

/-- **The records of the heap do not overlap** each other or the outstanding areas. -/
theorem pairwise_pieces (hheads : Heads lists regions m)
    (hinv : HeapInv (KeptFrames dir regions m) h out pending) :
    (pieces lists h ++ out).Pairwise AreasApart := by
  have hk := keptFrames_keeper dir regions m
  have huse : (h.metaAreas ++ out).Pairwise AreasApart :=
    hinv.areas.pairwise (hinv.pairwise_areas hk) fun h => h.symm
  -- the heads lie on other pages than everything else
  have hhead : ∀ hd, (hd = lists.ahaBlockList ∨ hd = lists.ahaBigList) → ∀ a : ℕ × ℕ,
      0 < a.2 → (∀ x, a.1 ≤ x → x < a.1 + a.2 →
        ¬ NoFrame regions (4096 * (x / 4096))) → AreasApart (hd, 8) a := by
    intro hd hhd a hpos ha
    by_contra hover
    simp only [AreasApart, not_or, not_le] at hover
    have hword : HeadWord lists (max hd a.1) := by
      rcases hhd with rfl | rfl
      · exact .inl (by omega)
      · exact .inr (by omega)
    exact ha (max hd a.1) (by omega) (by omega) (hheads.page _ hword).2.1
  have hblock : ∀ b ∈ h.ahaBlockList, ∀ x, b.addr ≤ x → x < b.addr + (24 + b.totElts) →
      ¬ NoFrame regions (4096 * (x / 4096)) := by
    intro b hb x hlo hhi
    have hlayout := (hinv.blocks b hb).layout
    exact block_page hinv (within_block hinv hb hlo (by omega))
  have harea : ∀ a ∈ h.metaAreas ++ out, ∀ x, a.1 ≤ x → x < a.1 + a.2 →
      ¬ NoFrame regions (4096 * (x / 4096)) := by
    intro a ha x hlo hhi
    have hw := hinv.byte_within hk (hinv.areas.mem_iff.mpr ha) hlo hhi
    exact hinv.frames.not_noFrame (within_append.mpr (.inr hw))
  have hpieces : pieces lists h ++ out = (lists.ahaBlockList, 8) :: (lists.ahaBigList, 8) ::
      (h.ahaBlockList.map (fun b => (b.addr, 24 + b.totElts)) ++ (h.metaAreas ++ out)) := by
    simp [pieces]
  have hothers : ∀ a ∈ h.ahaBlockList.map (fun b => (b.addr, 24 + b.totElts)) ++
      (h.metaAreas ++ out), 0 < a.2 ∧ ∀ x, a.1 ≤ x → x < a.1 + a.2 →
        ¬ NoFrame regions (4096 * (x / 4096)) := by
    intro a ha
    rcases List.mem_append.mp ha with ha | ha
    · obtain ⟨b, hb, rfl⟩ := List.mem_map.mp ha
      exact ⟨by simp only; omega, hblock b hb⟩
    · exact ⟨hinv.area_pos (hinv.areas.mem_iff.mpr ha), harea a ha⟩
  rw [hpieces, List.pairwise_cons, List.pairwise_cons, List.pairwise_append]
  refine ⟨fun a ha => ?_, fun a ha => hhead _ (.inr rfl) a (hothers a ha).1 (hothers a ha).2,
    ?_, huse, ?_⟩
  · rcases List.mem_cons.mp ha with rfl | ha
    · exact hheads.apart
    · exact hhead _ (.inl rfl) a (hothers a ha).1 (hothers a ha).2
  · rw [List.pairwise_map]
    refine (List.Pairwise.and_mem.mp (pairwise_blocks hinv)).imp ?_
    rintro b b' ⟨hb, hb', hapart⟩
    have hlayout := (hinv.blocks b hb).layout
    have hlayout' := (hinv.blocks b' hb').layout
    simp only [Apart] at hapart
    simp only [AreasApart]
    omega
  · intro a ha a' ha'
    obtain ⟨b, hb, rfl⟩ := List.mem_map.mp ha
    exact (hinv.header_apart hk hb (hinv.areas.mem_iff.mpr ha')).symm

end Pieces

end Ahos.Raw
