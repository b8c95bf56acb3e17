import Ahos.Mem.Kmalloc.Chunks

/-!
# Machines that store a heap

The words of the heap are words of different records, and none of them is a word of the page
tables or of an area that a caller holds. So a call that writes into one record leaves the others
as they are.
-/

namespace Ahos.Raw

/-! ## The words of the records -/

section Words

variable {lists : AhaLists} {dir : ℕ} {regions : List (ℕ × ℕ)} {m : ℕ → Option (ℕ × ℕ)} {h : Heap}
  {out pending : List (ℕ × ℕ)} {b b' : AhaBlock} {bigMeta bigMeta' : AhaBigMeta} {x : ℕ}

/-- The byte at `x` lies in one of the areas. -/
def InAreas (areas : List (ℕ × ℕ)) (x : ℕ) : Prop := ∃ a ∈ areas, a.1 ≤ x ∧ x < a.1 + a.2

/-- Two records that share a word are the same. -/
theorem piece_unique (hheads : Heads lists regions m)
    (hinv : HeapInv (KeptFrames dir regions m) h out pending) {a a' : ℕ × ℕ}
    (ha : a ∈ pieces lists h) (ha' : a' ∈ pieces lists h) (hx : a.1 ≤ x ∧ x < a.1 + a.2)
    (hx' : a'.1 ≤ x ∧ x < a'.1 + a'.2) : a = a' := by
  by_contra hne
  have hsymm : Std.Symm AreasApart := ⟨fun _ _ h => h.symm⟩
  have hpw := (List.pairwise_append.mp (pairwise_pieces hheads hinv)).1
  have hapart := hpw.forall ha ha' hne
  unfold AreasApart at hapart
  omega

theorem block_piece (hb : b ∈ h.ahaBlockList) : (b.addr, 24 + b.totElts) ∈ pieces lists h := by
  have := List.mem_map_of_mem (f := fun b : AhaBlock => (b.addr, 24 + b.totElts)) hb
  simp only [pieces, List.mem_cons, List.mem_append]
  exact .inr (.inr (.inl this))

theorem big_piece (hm : bigMeta ∈ h.ahaBigList) : (bigMeta.addr, 16) ∈ pieces lists h := by
  have := List.mem_map_of_mem (f := fun m : AhaBigMeta => (m.addr, 16)) hm
  simp only [pieces, List.mem_cons, List.mem_append]
  exact .inr (.inr (.inr this))

/-- Blocks with one address are one block. -/
theorem block_unique (hinv : HeapInv (KeptFrames dir regions m) h out pending)
    (hb : b ∈ h.ahaBlockList) (hb' : b' ∈ h.ahaBlockList) (haddr : b.addr = b'.addr) : b = b' := by
  by_contra hne
  have hsymm : Std.Symm fun b b' : AhaBlock => Apart (b.addr, 1) (b'.addr, 1) :=
    ⟨fun _ _ h => Or.symm h⟩
  have hapart := (pairwise_blocks hinv).forall hb hb' hne
  simp only [Apart] at hapart
  omega

/-- The record of a word of the list of blocks. -/
theorem blockNode_piece (hx : NodeWord (lists.ahaBlockList :: blockNodes h) x) :
    lists.ahaBlockList ≤ x ∧ x < lists.ahaBlockList + 8 ∨
      ∃ b ∈ h.ahaBlockList, x = b.addr + 16 ∨ x = b.addr + 20 := by
  obtain ⟨node, hnode, hx⟩ := hx
  rcases List.mem_cons.mp hnode with rfl | hnode
  · exact .inl (by omega)
  · obtain ⟨b, hb, rfl⟩ := List.mem_map.mp hnode
    exact .inr ⟨b, hb, hx⟩

/-- The record of a word of the list of big allocations. -/
theorem bigNode_piece (hx : NodeWord (lists.ahaBigList :: bigNodes h) x) :
    lists.ahaBigList ≤ x ∧ x < lists.ahaBigList + 8 ∨
      ∃ m ∈ h.ahaBigList, x = m.addr + 8 ∨ x = m.addr + 12 := by
  obtain ⟨node, hnode, hx⟩ := hx
  rcases List.mem_cons.mp hnode with rfl | hnode
  · exact .inl (by omega)
  · obtain ⟨m, hm, rfl⟩ := List.mem_map.mp hnode
    exact .inr ⟨m, hm, hx⟩

theorem head_piece :
    (lists.ahaBlockList, 8) ∈ pieces lists h ∧ (lists.ahaBigList, 8) ∈ pieces lists h := by
  simp [pieces]

theorem BlockField.within (hx : BlockField b x) : b.addr ≤ x ∧ x < b.addr + (24 + b.totElts) := by
  unfold BlockField at hx
  omega

/-- The fields of a block are no words of other records. -/
structure OnlyBlock (lists : AhaLists) (h : Heap) (b : AhaBlock) (x : ℕ) : Prop where
  block : ∀ b' ∈ h.ahaBlockList, BlockField b' x → b' = b
  big : ∀ bigMeta ∈ h.ahaBigList, ¬ BigField bigMeta x
  blockList : ¬ NodeWord (lists.ahaBlockList :: blockNodes h) x
  bigList : ¬ NodeWord (lists.ahaBigList :: bigNodes h) x

theorem onlyBlock (hheads : Heads lists regions m)
    (hinv : HeapInv (KeptFrames dir regions m) h out pending) (hb : b ∈ h.ahaBlockList)
    (hx : BlockField b x) : OnlyBlock lists h b x := by
  have hwithin := hx.within
  -- records of other kinds have other sizes
  have heq : ∀ a ∈ pieces lists h, a.1 ≤ x ∧ x < a.1 + a.2 → (b.addr, 24 + b.totElts) = a :=
    fun a ha hxa => piece_unique hheads hinv (block_piece hb) ha hwithin hxa
  have hsize : ∀ a ∈ pieces lists h, a.1 ≤ x ∧ x < a.1 + a.2 → 24 ≤ a.2 := by
    intro a ha hxa
    rw [← heq a ha hxa]
    exact Nat.le_add_right ..
  constructor
  case block =>
    intro b' hb' hx'
    exact (block_unique hinv hb hb' (Prod.mk.inj (heq _ (block_piece hb') hx'.within)).1).symm
  case big =>
    intro bigMeta hm hx'
    have := hsize _ (big_piece hm) (by unfold BigField at hx'; simp only; omega)
    simp only at this
    omega
  case blockList =>
    intro hnode
    rcases blockNode_piece hnode with hhead | ⟨b', hb', hx'⟩
    · have := hsize _ head_piece.1 hhead
      simp only at this
      omega
    · obtain rfl := block_unique hinv hb hb'
        (Prod.mk.inj (heq _ (block_piece hb') (by simp only; omega))).1
      unfold BlockField at hx
      omega
  case bigList =>
    intro hnode
    rcases bigNode_piece hnode with hhead | ⟨bigMeta, hm, hx'⟩
    · have := hsize _ head_piece.2 hhead
      simp only at this
      omega
    · have := hsize _ (big_piece hm) (by simp only; omega)
      simp only at this
      omega

/-- A word of the list of blocks is no word of another record. -/
structure OnlyBlockList (lists : AhaLists) (h : Heap) (x : ℕ) : Prop where
  block : ∀ b ∈ h.ahaBlockList, ¬ BlockField b x
  big : ∀ bigMeta ∈ h.ahaBigList, ¬ BigField bigMeta x
  bigList : ¬ NodeWord (lists.ahaBigList :: bigNodes h) x

theorem onlyBlockList (hheads : Heads lists regions m)
    (hinv : HeapInv (KeptFrames dir regions m) h out pending)
    (hx : NodeWord (lists.ahaBlockList :: blockNodes h) x) : OnlyBlockList lists h x := by
  -- the record of the word is the head or a block
  have hpiece : ∃ a ∈ pieces lists h, (a.1 ≤ x ∧ x < a.1 + a.2) ∧
      (a = (lists.ahaBlockList, 8) ∨ 24 ≤ a.2) := by
    rcases blockNode_piece hx with hhead | ⟨b, hb, hx'⟩
    · exact ⟨_, head_piece.1, hhead, .inl rfl⟩
    · exact ⟨_, block_piece hb, by simp only; omega, .inr (by simp only; omega)⟩
  obtain ⟨a, ha, hxa, hkind⟩ := hpiece
  have hbig : ∀ bigMeta ∈ h.ahaBigList, ¬ (bigMeta.addr ≤ x ∧ x < bigMeta.addr + 16) := by
    intro bigMeta hm hx'
    obtain rfl := piece_unique hheads hinv ha (big_piece hm) hxa hx'
    rcases hkind with heq | hsize
    · have := (Prod.mk.inj heq).2
      omega
    · simp only at hsize
      omega
  refine ⟨fun b hb hx' => (onlyBlock hheads hinv hb hx').blockList hx, fun bigMeta hm hx' => ?_,
    fun hnode => ?_⟩
  · unfold BigField at hx'
    exact hbig bigMeta hm (by omega)
  · rcases bigNode_piece hnode with hhead | ⟨bigMeta, hm, hx'⟩
    · have hheadsApart := hheads.apart
      obtain rfl := piece_unique hheads hinv ha head_piece.2 hxa hhead
      unfold NodesApart at hheadsApart
      rcases hkind with heq | hsize
      · have := (Prod.mk.inj heq).1
        omega
      · simp only at hsize
        omega
    · exact hbig bigMeta hm (by omega)

/-- A word of the list of big allocations is no word of another record. -/
structure OnlyBigList (lists : AhaLists) (h : Heap) (x : ℕ) : Prop where
  block : ∀ b ∈ h.ahaBlockList, ¬ BlockField b x
  big : ∀ bigMeta ∈ h.ahaBigList, ¬ BigField bigMeta x
  blockList : ¬ NodeWord (lists.ahaBlockList :: blockNodes h) x

/-- Metadata with one address has one node. -/
theorem onlyBigList (hheads : Heads lists regions m)
    (hinv : HeapInv (KeptFrames dir regions m) h out pending)
    (hx : NodeWord (lists.ahaBigList :: bigNodes h) x) : OnlyBigList lists h x := by
  refine ⟨fun b hb hx' => (onlyBlock hheads hinv hb hx').bigList hx, fun bigMeta hm hx' => ?_,
    fun hnode => (onlyBlockList hheads hinv hnode).bigList hx⟩
  unfold BigField at hx'
  rcases bigNode_piece hx with hhead | ⟨bigMeta', hm', hx''⟩
  · have := (Prod.mk.inj (piece_unique hheads hinv (big_piece hm) head_piece.2
      (by simp only; omega) hhead)).2
    omega
  · have := (Prod.mk.inj (piece_unique hheads hinv (big_piece hm) (big_piece hm')
      (x := x) (by simp only; omega) (by simp only; omega))).1
    omega

/-- The record of a word that stores the heap. -/
theorem stored_piece (hx : Stored lists h x) : InAreas (pieces lists h) x := by
  cases hx with
  | block b hb hx => exact ⟨_, block_piece hb, hx.within⟩
  | big bigMeta hm hx =>
    unfold BigField at hx
    exact ⟨_, big_piece hm, by simp only; omega⟩
  | blockList hx =>
    rcases blockNode_piece hx with hhead | ⟨b, hb, hx⟩
    · exact ⟨_, head_piece.1, hhead⟩
    · exact ⟨_, block_piece hb, by simp only; omega⟩
  | bigList hx =>
    rcases bigNode_piece hx with hhead | ⟨bigMeta, hm, hx⟩
    · exact ⟨_, head_piece.2, hhead⟩
    · exact ⟨_, big_piece hm, by simp only; omega⟩

/-- The records of the heap lie in words of the allocator. -/
theorem own_piece (hinv : HeapInv (KeptFrames dir regions m) h out pending)
    (hx : InAreas (pieces lists h) x) : Own lists h.blockFrames x := by
  have hblock : ∀ b ∈ h.ahaBlockList, ∀ y, b.addr ≤ y → y < b.addr + 4096 →
      Own lists h.blockFrames y := fun b hb y hlo hhi => .inr (within_block hinv hb hlo hhi)
  obtain ⟨a, ha, hlo, hhi⟩ := hx
  simp only [pieces, List.mem_cons, List.mem_append, Heap.metaAreas, List.mem_map] at ha
  rcases ha with rfl | rfl | ⟨b, hb, rfl⟩ | ⟨bigMeta, hm, rfl⟩
  · exact .inl (.inl ⟨hlo, hhi⟩)
  · exact .inl (.inr ⟨hlo, hhi⟩)
  · have := (hinv.blocks b hb).layout
    simp only at hlo hhi
    exact hblock b hb x hlo (by omega)
  · obtain ⟨b, hb, hlo', hhi'⟩ := meta_block hinv (hinv.meta_used hm)
    simp only at hlo hhi hlo' hhi'
    exact hblock b hb x (by omega) (by omega)

/-- **An area that a caller holds** contains no word of the heap or of the page tables. -/
theorem InAreas.not_used (hheads : Heads lists regions m)
    (hinv : HeapInv (KeptFrames dir regions m) h out pending) (hx : InAreas out x) :
    ¬ InAreas (pieces lists h) x ∧ ¬ TableWord h.machine.mem dir x := by
  obtain ⟨a, ha, hlo, hhi⟩ := hx
  refine ⟨fun ⟨a', ha', hlo', hhi'⟩ => ?_, ?_⟩
  · have hapart := (List.pairwise_append.mp (pairwise_pieces hheads hinv)).2.2 a' ha' a ha
    unfold AreasApart at hapart
    omega
  · have hw := hinv.byte_within (keptFrames_keeper dir regions m)
      (hinv.areas.mem_iff.mpr (List.mem_append_right _ ha)) hlo hhi
    exact hinv.frames.frames.paging.inv.not_tableWord (f := 4096 * (x / 4096))
      (within_append.mpr (.inr hw)) (by omega) (by omega)

/-- The words that store the heap belong to the allocator. -/
theorem own_stored (hinv : HeapInv (KeptFrames dir regions m) h out pending)
    (hx : Stored lists h x) : Own lists h.blockFrames x :=
  own_piece hinv (stored_piece hx)

end Words

/-! ## Machines -/

/-- The machine `t` runs on the tables of the heap and stores it. -/
structure Stores (lists : AhaLists) (dir : ℕ) (h : Heap) (t : Machine) : Prop where
  shadow : Shadow dir h.machine t
  heap : HeapAt lists t.mem h

/-- The words of the areas are the same in both memories. -/
def KeepsAreas (areas : List (ℕ × ℕ)) (mem mem' : ℕ → ℕ) : Prop :=
  ∀ x, InAreas areas x → mem' x = mem x

section Machines

variable {lists : AhaLists} {dir : ℕ} {regions : List (ℕ × ℕ)} {m : ℕ → Option (ℕ × ℕ)} {h : Heap}
  {out pending : List (ℕ × ℕ)} {t : Machine} {mem mem' mem'' : ℕ → ℕ}

theorem KeepsAreas.trans (h : KeepsAreas out mem mem') (h' : KeepsAreas out mem' mem'') :
    KeepsAreas out mem mem'' := fun x hx => (h' x hx).trans (h x hx)

theorem KeepsAreas.mono {out' : List (ℕ × ℕ)} (h : KeepsAreas out' mem mem')
    (hsub : ∀ a ∈ out, a ∈ out') : KeepsAreas out mem mem' :=
  fun x ⟨a, ha, hx⟩ => h x ⟨a, hsub a ha, hx⟩

/-- Writing into the records of the heap, or into areas that are not given to a caller yet. -/
theorem shadow_write (extra : List (ℕ × ℕ)) (hheads : Heads lists regions m)
    (hinv : HeapInv (KeptFrames dir regions m) h (extra ++ out) pending)
    (hshadow : Shadow dir h.machine t)
    (hsame : ∀ x, ¬ InAreas (pieces lists h ++ extra) x → mem' x = t.mem x) :
    Shadow dir h.machine { t with mem := mem' } ∧ KeepsAreas out t.mem mem' := by
  have hextra : ∀ {x}, InAreas extra x → InAreas (extra ++ out) x := fun ⟨a, ha, hx⟩ =>
    ⟨a, List.mem_append_left _ ha, hx⟩
  refine ⟨⟨?_, fun x hx => ?_⟩, fun x hx => hsame x ?_⟩
  · conv_lhs => rw [hshadow.same]
  · simp only
    rw [hsame x ?_]
    · exact hshadow.agree x hx
    · rintro ⟨a, ha, hxa⟩
      rcases List.mem_append.mp ha with ha | ha
      · exact (own_spec hheads hinv (own_piece hinv ⟨a, ha, hxa⟩)).2.2 hx
      · exact (InAreas.not_used hheads hinv (hextra ⟨a, ha, hxa⟩)).2 hx
  · rintro ⟨a, ha, hxa⟩
    obtain ⟨a', ha', hxa'⟩ := hx
    have hpw := pairwise_pieces hheads hinv
    rw [← List.append_assoc] at hpw
    have hapart := (List.pairwise_append.mp hpw).2.2 a ha a' ha'
    unfold AreasApart at hapart
    omega

/-- Calls of the paging code leave the heap in memory and the areas of the callers alone. -/
theorem Stores.paging {h' : Heap} {t' : Machine} (hheads : Heads lists regions m)
    (hinv : HeapInv (KeptFrames dir regions m) h' out pending) (hat : HeapAt lists t.mem h)
    (hblocks : ∀ b ∈ h.ahaBlockList, BlockInv b)
    (hown : ∀ x, Stored lists h x → Own lists h'.blockFrames x) {s : Machine}
    (hcall : ShadowCall dir s t h'.machine t') :
    Shadow dir h'.machine t' ∧ HeapAt lists t'.mem h ∧ KeepsAreas out t.mem t'.mem :=
  ⟨hcall.shadow, hat.congr hblocks fun x hx =>
      hcall.call.outside x (own_spec hheads hinv (hown x hx)).2.2,
    fun x hx => hcall.call.outside x (InAreas.not_used hheads hinv hx).2⟩

/-- The callers reach their areas, whatever they write into them. -/
theorem direct_areas (hheads : Heads lists regions m)
    (hinv : HeapInv (KeptFrames dir regions m) h out pending) (hshadow : Shadow dir h.machine t) :
    Direct (InAreas out) t := by
  have hframes := hinv.frames.frames
  intro mem hmem x hx
  obtain ⟨a, ha, hlo, hhi⟩ := hx
  have hw := hinv.byte_within (keptFrames_keeper dir regions m)
    (hinv.areas.mem_iff.mpr (List.mem_append_right _ ha)) hlo hhi
  have hlt := hframes.held.within_below (within_append.mpr (.inr hw))
  have hself : translate h.machine.mem dir x = some x := by
    rw [translate_page, hframes.mapped _ hw, Option.map_some, pageOffset_eq]
    simp only [Option.some.injEq]
    omega
  have hagree : AgreeTables dir h.machine.mem mem := by
    intro y hy
    rw [hmem y fun harea => (InAreas.not_used hheads hinv harea).2 hy]
    exact hshadow.agree y hy
  have hpg : t.cr0Pg = true ∧ t.cr3 = dir := by
    rw [hshadow.same]
    exact hframes.mode
  simp only [Machine.resolve, hpg.1, if_true, hpg.2,
    hagree.translate hframes.paging.inv.self (show x < 4294967296 by omega), hself]

end Machines

end Ahos.Raw
