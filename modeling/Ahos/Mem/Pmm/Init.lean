import Ahos.Mem.Pmm.Reserve

/-!
# What `phys_mem_map_init` leaves behind

Under the guarantees of the boot loader, the map that `phys_mem_map_init` leaves
behind makes available exactly the ranges that lie inside one available entry of
the multiboot map, below 4 GB, and do not meet the kernel, the map itself or the
module. The place of the map does not meet any structure of the boot loader.
-/

namespace Ahos

/-- The bytes of a multiboot entry. -/
def MultibootMmapEntry.bytes (e : MultibootMmapEntry) : Set ℕ := Set.Ico e.addr (e.addr + e.len)

/-- A module was loaded: the flag is set and the count is not zero. -/
def MultibootInfo.hasModule (mbi : MultibootInfo) : Bool := mbi.hasMods && mbi.modsCount != 0

/-- The module, or the empty range when there is none. -/
def MultibootInfo.module (mbi : MultibootInfo) : ℕ × ℕ :=
  if mbi.hasModule then (mbi.mod.modStart, mbi.mod.modEnd) else (0, 0)

/-- The module structure, or the empty range when there is none. -/
def MultibootInfo.modHeader (mbi : MultibootInfo) : ℕ × ℕ :=
  if mbi.hasModule then (mbi.modsAddr, mbi.modsAddr + 16) else (0, 0)

/-- The ranges that are in use when the kernel starts. -/
def MultibootInfo.areas (mbi : MultibootInfo) (kernel : KernelImage) : List (ℕ × ℕ) :=
  [(mbi.addr, mbi.addr + 120), (mbi.mmapAddr, mbi.mmapAddr + mbi.mmapLength), mbi.modHeader,
    mbi.module, (kernel.kernelStart, kernel.kernelEnd)]

/-- The bytes of a range. -/
def rangeBytes (a : ℕ × ℕ) : Set ℕ := Set.Ico a.1 a.2

/-- What the boot loader guarantees about the map and about where its structures end. -/
structure BootLayout (kernel : KernelImage) (mbi : MultibootInfo) : Prop where
  /-- `mmap_length` is the length of the entries that the macros of the map visit. -/
  mmapLength_eq : mbi.mmapLength = (mbi.mmap.map fun e => e.size + 4).sum
  mmapLength_lt : mbi.mmapLength < 65536
  size : ∀ e ∈ mbi.mmap, e.size = 20
  mmap_disjoint : mbi.mmap.Pairwise fun e f => Disjoint e.bytes f.bytes
  mmap_bounded : ∀ e ∈ mbi.mmap, 0x100000000 ≤ e.addr ∨ e.addr + e.len ≤ 0xffc00000
  kernel_nonempty : kernel.kernelStart < kernel.kernelEnd
  module_nonempty : mbi.hasModule = true → mbi.mod.modStart < mbi.mod.modEnd
  areas_bounded : ∀ a ∈ mbi.areas kernel, a.2 ≤ 0xffc00000

/-- What the boot loader guarantees: its structures, the module and the kernel are also apart. -/
structure BootInfo (kernel : KernelImage) (mbi : MultibootInfo) : Prop
    extends BootLayout kernel mbi where
  areas_disjoint : (mbi.areas kernel).Pairwise fun a b => Disjoint (rangeBytes a) (rangeBytes b)

/-! ## Filling -/

theorem MmapType.ofCode_eq_available {code : ℕ} :
    MmapType.ofCode code = .available ↔ code = 1 := by
  unfold MmapType.ofCode
  split <;> simp_all

theorem shiftRight_32_ne_zero {x : ℕ} : x >>> 32 ≠ 0 ↔ 4294967296 ≤ x := by
  rw [Nat.shiftRight_eq_div_pow]
  omega

theorem and_ffffffff {x : ℕ} (h : x < 4294967296) : x &&& 0xffffffff = x :=
  (Word32.and_low x 32).trans (Nat.mod_eq_of_lt h)

/-- A length without a high word is copied as it is. -/
theorem segLen_of_lt {e : MultibootMmapEntry} (h : e.len < 4294967296) : segLen e = e.len := by
  unfold segLen
  rw [if_neg (by rw [shiftRight_32_ne_zero]; omega), and_ffffffff h]

/-- An entry below 4 GB is copied as it is. -/
theorem segLen_of_bounded {e : MultibootMmapEntry} (h : e.addr + e.len ≤ 0xffc00000) :
    segLen e = e.len := segLen_of_lt (by omega)

/-- The entries of the filled map. -/
theorem mem_fillPhysMmap {mmap : List MultibootMmapEntry} {f : PhysMmapEntry}
    (hb : ∀ e ∈ mmap, 0x100000000 ≤ e.addr ∨ e.addr + e.len ≤ 0xffc00000) :
    f ∈ fillPhysMmap mmap ↔
      ∃ e ∈ mmap, e.addr < 0x100000000 ∧ f = ⟨e.addr, e.len, MmapType.ofCode e.type⟩ := by
  simp only [fillPhysMmap, List.mem_filterMap]
  refine exists_congr fun e => and_congr_right fun he => ?_
  by_cases hlt : e.addr < 4294967296
  · have hend := (hb e he).resolve_left (by omega)
    rw [if_neg (by rw [shiftRight_32_ne_zero]; omega), and_ffffffff hlt, segLen_of_bounded hend]
    simp [hlt, eq_comm]
  · rw [if_pos (shiftRight_32_ne_zero.mpr (by omega))]
    simp [hlt]

theorem mapInv_fillPhysMmap {mmap : List MultibootMmapEntry}
    (hb : ∀ e ∈ mmap, 0x100000000 ≤ e.addr ∨ e.addr + e.len ≤ 0xffc00000)
    (hd : mmap.Pairwise fun e f => Disjoint e.bytes f.bytes) : MapInv (fillPhysMmap mmap) := by
  refine ⟨fun f hf => ?_, ?_⟩
  · obtain ⟨e, he, hlt, rfl⟩ := (mem_fillPhysMmap hb).mp hf
    exact (hb e he).resolve_left (by omega)
  · refine List.pairwise_filterMap.mpr ((List.Pairwise.and_mem.mp hd).imp ?_)
    rintro e f ⟨he, hf, hef⟩ a ha b hb'
    have hcopy : ∀ (e : MultibootMmapEntry) (a : PhysMmapEntry), e ∈ mmap →
        (if e.addr >>> 32 ≠ 0 then none else some
          (⟨e.addr &&& 0xffffffff, segLen e, MmapType.ofCode e.type⟩ : PhysMmapEntry)) = some a →
        a.bytes = e.bytes := by
      intro e a he ha
      split_ifs at ha with hlt
      rw [shiftRight_32_ne_zero, not_le] at hlt
      have hend := (hb e he).resolve_left (by omega)
      obtain rfl := Option.some.inj ha
      simp only [PhysMmapEntry.bytes, and_ffffffff hlt, segLen_of_bounded hend]
      rfl
    rw [hcopy e a he ha, hcopy f b hf hb']
    exact hef

/-- The available ranges of the filled map. -/
theorem available_fillPhysMmap {mmap : List MultibootMmapEntry} {lo hi : ℕ}
    (hb : ∀ e ∈ mmap, 0x100000000 ≤ e.addr ∨ e.addr + e.len ≤ 0xffc00000) :
    Available (fillPhysMmap mmap) lo hi ↔
      ∃ e ∈ mmap, e.type = 1 ∧ e.addr < 0x100000000 ∧ e.addr ≤ lo ∧ hi ≤ e.addr + e.len := by
  constructor
  · rintro ⟨f, hf, ht, hlo, hhi⟩
    obtain ⟨e, he, hlt, rfl⟩ := (mem_fillPhysMmap hb).mp hf
    exact ⟨e, he, MmapType.ofCode_eq_available.mp ht, hlt, hlo, hhi⟩
  · rintro ⟨e, he, ht, hlt, hlo, hhi⟩
    exact ⟨_, (mem_fillPhysMmap hb).mpr ⟨e, he, hlt, rfl⟩,
      MmapType.ofCode_eq_available.mpr ht, hlo, hhi⟩

/-! ## The place of the map -/

section Place

variable {size : ℕ}

/-- A region that the place does not meet leaves it where it is. -/
theorem avoidRegion_of_apart {p : ℕ} {e : PhysMmapEntry}
    (h : collides p size e.addr e.len = false) : avoidRegion size p e = p := by
  rw [avoidRegion, h, if_neg Bool.false_ne_true]

/-- A region that the place meets moves it to the first page behind. -/
theorem avoidRegion_of_collides {p : ℕ} {e : PhysMmapEntry}
    (h : collides p size e.addr e.len = true) (hend : e.addr + e.len + 4096 ≤ 4294967296) :
    avoidRegion size p e = 4096 * ((e.addr + e.len + 4095) / 4096) := by
  rw [avoidRegion, if_pos h, Word32.add_of_lt (by omega), pageAlign_eq (by omega)]

/-- A place that meets no region of the list stays where it is. -/
theorem foldl_avoidRegion_of_apart {mbr : PhysMmap} {p : ℕ}
    (h : ∀ e ∈ mbr, collides p size e.addr e.len = false) :
    mbr.foldl (avoidRegion size) p = p := by
  induction mbr with
  | nil => rfl
  | cons e mbr ih =>
    rw [List.foldl_cons, avoidRegion_of_apart (h e (List.mem_cons_self ..))]
    exact ih fun f hf => h f (List.mem_cons_of_mem _ hf)

theorem collides_eq_true {a m b n : ℕ} (ha : a + m < 4294967296) (hb : b + n < 4294967296) :
    collides a m b n = true ↔ a < b + n ∧ b < a + m := by
  unfold collides
  rw [Word32.add_of_lt ha, Word32.add_of_lt hb, decide_eq_true_eq]

/-- The inner loop of `find_pmm_location` moves the place upwards, and in a sorted list
past every region that it meets. -/
theorem foldl_avoidRegion_spec {mbr : PhysMmap} {p : ℕ} (hp : p + size < 4294967296)
    (hend : ∀ e ∈ mbr, e.addr + e.len + 4096 + size ≤ 4294967296)
    (hsorted : mbr.Pairwise fun e f => e.addr ≤ f.addr) :
    p ≤ mbr.foldl (avoidRegion size) p ∧ mbr.foldl (avoidRegion size) p + size < 4294967296 ∧
      ∀ e ∈ mbr, mbr.foldl (avoidRegion size) p + size ≤ e.addr ∨
        e.addr + e.len ≤ mbr.foldl (avoidRegion size) p := by
  induction mbr generalizing p with
  | nil => exact ⟨le_rfl, hp, by simp⟩
  | cons e mbr ih =>
    have hecol := hend e (List.mem_cons_self ..)
    have hrest : ∀ f ∈ mbr, f.addr + f.len + 4096 + size ≤ 4294967296 :=
      fun f hf => hend f (List.mem_cons_of_mem _ hf)
    obtain ⟨hhead, htail⟩ := List.pairwise_cons.mp hsorted
    have hcol := collides_eq_true (a := p) (m := size) (b := e.addr) (n := e.len)
      (by omega) (by omega)
    rw [List.foldl_cons]
    by_cases hc : collides p size e.addr e.len = true
    · -- the place moves behind the region
      obtain ⟨hlt, -⟩ := hcol.mp hc
      rw [avoidRegion_of_collides hc (by omega)]
      obtain ⟨hle, hub, hap⟩ :=
        ih (p := 4096 * ((e.addr + e.len + 4095) / 4096)) (by omega) hrest htail
      refine ⟨by omega, hub, fun f hf => ?_⟩
      rcases List.mem_cons.mp hf with rfl | hf
      · exact .inr (by omega)
      · exact hap f hf
    · rw [avoidRegion_of_apart (Bool.eq_false_iff.mpr hc)]
      obtain ⟨hle, hub, hap⟩ := ih hp hrest htail
      refine ⟨hle, hub, fun f hf => ?_⟩
      rcases List.mem_cons.mp hf with rfl | hf
      · rw [hcol] at hc
        by_cases hbelow : f.addr + f.len ≤ p
        · exact .inr (by omega)
        · -- the place lies below the region, and so below all later ones
          rw [foldl_avoidRegion_of_apart]
          · exact .inl (by omega)
          · intro g hg
            have := hhead g hg
            have := hrest g hg
            rw [Bool.eq_false_iff, ne_eq, collides_eq_true (by omega) (by omega)]
            omega
      · exact hap f hf

end Place

/-- An entry of the multiboot map in which `find_pmm_location` searches. -/
def MultibootMmapEntry.Segment (e : MultibootMmapEntry) : Prop :=
  MmapType.ofCode e.type = .available ∧ 0x100000 ≤ e.addr ∧ e.addr < 4294967296

/-- One entry of the search: the candidate of a segment is taken if it ends in the segment. -/
theorem findPmmSegment_cons (kernel : KernelImage) (mbr : PhysMmap) (size : ℕ)
    (e : MultibootMmapEntry) (mmap : List MultibootMmapEntry) :
    (¬ e.Segment ∧
      findPmmSegment kernel mbr size (e :: mmap) = findPmmSegment kernel mbr size mmap) ∨
    (e.Segment ∧ findPmmSegment kernel mbr size (e :: mmap) =
      if Word32.add (pmmCandidate kernel mbr size e.addr) size ≤ Word32.add e.addr (segLen e) then
        some (pmmCandidate kernel mbr size e.addr)
      else findPmmSegment kernel mbr size mmap) := by
  simp only [findPmmSegment, MultibootMmapEntry.Segment]
  by_cases ht : MmapType.ofCode e.type = .available
  · rw [if_neg (not_not.mpr ht)]
    by_cases hlt : e.addr < 4294967296
    · rw [if_neg (by rw [shiftRight_32_ne_zero]; omega), and_ffffffff hlt]
      split_ifs with hlow <;> simp [ht, hlt] <;> omega
    · rw [if_pos (shiftRight_32_ne_zero.mpr (by omega))]
      exact .inl ⟨by omega, rfl⟩
  · rw [if_pos ht]
    exact .inl ⟨fun h => ht h.1, rfl⟩

/-- The place that `find_pmm_location` returns is the candidate of a segment. -/
theorem findPmmSegment_spec {kernel : KernelImage} {mbr : PhysMmap} {size p : ℕ}
    {mmap : List MultibootMmapEntry}
    (h : findPmmSegment kernel mbr size mmap = some p) :
    ∃ e ∈ mmap, e.Segment ∧ p = pmmCandidate kernel mbr size e.addr ∧
      Word32.add p size ≤ Word32.add e.addr (segLen e) := by
  induction mmap with
  | nil => cases h
  | cons e mmap ih =>
    have hskip : findPmmSegment kernel mbr size mmap = some p → ∃ f ∈ e :: mmap, f.Segment ∧
        p = pmmCandidate kernel mbr size f.addr ∧
        Word32.add p size ≤ Word32.add f.addr (segLen f) := by
      intro hrest
      obtain ⟨f, hf, hspec⟩ := ih hrest
      exact ⟨f, List.mem_cons_of_mem _ hf, hspec⟩
    rcases findPmmSegment_cons kernel mbr size e mmap with ⟨-, heq⟩ | ⟨hseg, heq⟩
    · exact hskip (heq ▸ h)
    · rw [heq] at h
      split_ifs at h with hfits
      · obtain rfl := Option.some.inj h
        exact ⟨e, List.mem_cons_self .., hseg, rfl, hfits⟩
      · exact hskip h

/-- The check of the modules keeps everything but the flag, which says afterwards whether
there is a module. -/
theorem checkMods_spec {mbi mbi' : MultibootInfo} (h : checkMods mbi = some mbi') :
    mbi' = { mbi with flags := mbi'.flags } ∧ mbi'.hasMods = mbi.hasModule := by
  unfold checkMods at h
  unfold MultibootInfo.hasModule
  split_ifs at h with hmods hpos hone
  · obtain rfl := Option.some.inj h
    refine ⟨rfl, ?_⟩
    rw [hmods, Bool.true_and, eq_comm]
    simpa using (show mbi.modsCount ≠ 0 by omega)
  · obtain rfl := Option.some.inj h
    refine ⟨rfl, ?_⟩
    have hzero : mbi.modsCount = 0 := by omega
    simp only [MultibootInfo.hasMods, multibootInfoMods, Nat.and_assoc, hzero, bne_self_eq_false,
      Bool.and_false]
    simp only [show (0xffffffff - 8) &&& 8 = 0 by decide, Nat.and_zero, ne_eq, not_true_eq_false,
      decide_false]
  · obtain rfl := Option.some.inj h
    refine ⟨rfl, ?_⟩
    rw [Bool.not_eq_true] at hmods
    rw [hmods, Bool.false_and]

/-- The structures of the boot loader, with the lengths that the code computes. -/
theorem mem_identifyMultibootRegions {mbi : MultibootInfo} {e : PhysMmapEntry} :
    e ∈ identifyMultibootRegions mbi ↔
      e = ⟨mbi.addr, 120, .other 0⟩ ∨ e = ⟨mbi.mmapAddr, mbi.mmapLength, .other 0⟩ ∨
        mbi.hasMods = true ∧ (e = ⟨mbi.modsAddr, 16, .other 0⟩ ∨
          e = ⟨mbi.mod.modStart, Word32.sub mbi.mod.modEnd mbi.mod.modStart, .other 0⟩) := by
  unfold identifyMultibootRegions sortPhysMmap
  rw [(BubbleSort.sort_perm PhysMmapEntry.addr _ _).mem_iff]
  cases mbi.hasMods <;> simp

theorem identifyMultibootRegions_sorted (mbi : MultibootInfo) :
    (identifyMultibootRegions mbi).Pairwise fun e f => e.addr ≤ f.addr :=
  BubbleSort.sort_length_sorted PhysMmapEntry.addr _

/-- Room for three times the entries of the multiboot map and of the reservations. -/
theorem physMemMapSize_eq {mbi : MultibootInfo} (h : mbi.mmapLength < 65536) :
    physMemMapSize mbi =
      4 + 36 * (mbi.mmapLength / 24 + 2 + if mbi.hasMods then 1 else 0) := by
  have hm : (if mbi.hasMods then 1 else 0) ≤ 1 := by split_ifs <;> omega
  simp only [physMemMapSize]
  generalize (if mbi.hasMods then 1 else 0) = m at hm ⊢
  have hn : mbi.mmapLength / 24 ≤ 2730 := by omega
  generalize mbi.mmapLength / 24 = n at hn ⊢
  rw [Word32.add_of_lt (a := n) (b := 2) (by omega), Word32.add_of_lt (a := n + 2) (by omega),
    Word32.mul_of_lt (a := n + 2 + m) (by omega), Word32.mul_of_lt (by omega),
    Word32.add_of_lt (by omega)]
  omega

theorem physMemMapSize_bounds (mbi : MultibootInfo) (h : mbi.mmapLength < 65536) :
    0 < physMemMapSize mbi ∧ physMemMapSize mbi < 1000000 := by
  rw [physMemMapSize_eq h]
  split_ifs <;> omega

/-- The steps of a successful `phys_mem_map_init`. -/
theorem physMemMapInit_eq_some {kernel : KernelImage} {mbi : MultibootInfo}
    {init : PhysMemMapInit} (h : physMemMapInit kernel mbi = some init) :
    ∃ mbi' p, checkMods mbi = some mbi' ∧
      findPmmSegment kernel (identifyMultibootRegions mbi') (physMemMapSize mbi')
        (sortMultibootMmap mbi').mmap = some p ∧
      reserveAll kernel (sortMultibootMmap mbi') p (physMemMapSize mbi') = some init := by
  unfold physMemMapInit at h
  split_ifs at h
  split at h
  · cases h
  · next mbi' hmods =>
    simp only at h
    split at h
    · cases h
    · next p mbi'' hfind =>
      split_ifs at h
      unfold findPmmLocation at hfind
      split_ifs at hfind
      · cases hfind
      · obtain ⟨hp, rfl⟩ := Prod.mk.inj hfind
        exact ⟨mbi', p, hmods, hp, h⟩

/-- A successful `reserve_region`. -/
theorem reserveRegion_spec {g g' : PhysMemMap} {addr len : ℕ} (hinv : MapInv g.entries)
    (hlen : 0 < len) (hend : addr + len ≤ 0xffc00000)
    (h : reserveRegion g addr len = (true, g')) : Reserves g.entries g'.entries addr len := by
  rw [reserveRegion_eq] at h
  by_cases hmax : g.nbReserved = maxReserved
  · rw [if_pos hmax] at h
    cases h
  · rw [if_neg hmax] at h
    obtain ⟨hok, rfl⟩ := Prod.mk.inj h
    exact reserveLoop_spec hinv hlen hend (Prod.ext hok rfl)

/-- The first page behind the kernel, where the search for the place starts. -/
theorem lt_pageAlign_kernelEnd {k : ℕ} (h : k + 4096 < 4294967296) :
    k < pageAlign (Word32.add k 1) ∧ pageAlign (Word32.add k 1) ≤ k + 4096 := by
  rw [Word32.add_of_lt (by omega), pageAlign_eq (by omega)]
  omega

theorem pmmCandidate_eq (kernel : KernelImage) (mbr : PhysMmap) (size segAddr : ℕ) :
    pmmCandidate kernel mbr size segAddr =
      mbr.foldl (avoidRegion size) (max (pageAlign (Word32.add kernel.kernelEnd 1)) segAddr) := by
  have hmax : ∀ a b : ℕ, (if a < b then b else a) = max a b := fun a b => by split_ifs <;> omega
  simp only [pmmCandidate, hmax]

/-- The place of the map: in a segment, behind the kernel, and apart from the structures of the
boot loader. -/
theorem findPmmSegment_place {kernel : KernelImage} {mbr : PhysMmap} {size p : ℕ}
    {mmap : List MultibootMmapEntry}
    (hstart : pageAlign (Word32.add kernel.kernelEnd 1) + size < 4294967296)
    (hmmap : ∀ e ∈ mmap, e.addr < 4294967296 → e.addr + e.len + size < 4294967296)
    (hend : ∀ e ∈ mbr, e.addr + e.len + 4096 + size ≤ 4294967296)
    (hsorted : mbr.Pairwise fun e f => e.addr ≤ f.addr)
    (h : findPmmSegment kernel mbr size mmap = some p) :
    pageAlign (Word32.add kernel.kernelEnd 1) ≤ p ∧
      (∃ e ∈ mmap, e.Segment ∧ e.addr ≤ p ∧ p + size ≤ e.addr + e.len) ∧
      ∀ e ∈ mbr, p + size ≤ e.addr ∨ e.addr + e.len ≤ p := by
  obtain ⟨e, he, hseg, rfl, hfits⟩ := findPmmSegment_spec h
  have hbound := hmmap e he hseg.2.2
  obtain ⟨hle, hub, hap⟩ := foldl_avoidRegion_spec
    (p := max (pageAlign (Word32.add kernel.kernelEnd 1)) e.addr) (by omega) hend hsorted
  rw [← pmmCandidate_eq] at hle hub hap
  rw [segLen_of_lt (by omega), Word32.add_of_lt hub, Word32.add_of_lt (by omega)] at hfits
  exact ⟨by omega, ⟨e, he, hseg, by omega, hfits⟩, hap⟩

/-- The map after `phys_mem_map_init`, in terms of the multiboot map. -/
structure BootMap (kernel : KernelImage) (mbi : MultibootInfo) (init : PhysMemMapInit) : Prop where
  inv : MapInv init.physMemMap
  part : ∀ f ∈ init.physMemMap, ∃ e ∈ mbi.mmap,
    e.addr ≤ f.addr ∧ f.addr + f.len ≤ e.addr + e.len
  available : ∀ lo hi, lo < hi → (Available init.physMemMap lo hi ↔
    (∃ e ∈ mbi.mmap, e.type = 1 ∧ e.addr < 0x100000000 ∧ e.addr ≤ lo ∧ hi ≤ e.addr + e.len) ∧
      Disjoint (Set.Ico lo hi) (rangeBytes (kernel.kernelStart, kernel.kernelEnd)) ∧
      Disjoint (Set.Ico lo hi) (rangeBytes (init.pmmAddr, init.pmmAddr + init.pmmSize)) ∧
      Disjoint (Set.Ico lo hi) (rangeBytes mbi.module))
  module_eq : (init.moduleAddr, init.moduleAddr + init.moduleLen) = mbi.module
  place : kernel.kernelEnd < init.pmmAddr ∧ init.pmmAddr + init.pmmSize ≤ 0xffc00000

/-- The three reservations of `phys_mem_map_init`. -/
theorem reserveAll_spec {kernel : KernelImage} {mbi : MultibootInfo} {p size : ℕ}
    {init : PhysMemMapInit} (h : reserveAll kernel mbi p size = some init)
    (hinv : MapInv (fillPhysMmap mbi.mmap)) (hk : kernel.kernelStart < kernel.kernelEnd)
    (hke : kernel.kernelEnd ≤ 0xffc00000) (hsize : 0 < size) (hp : p + size ≤ 0xffc00000)
    (hmod : mbi.hasMods = true → mbi.mod.modStart < mbi.mod.modEnd ∧
      mbi.mod.modEnd ≤ 0xffc00000) :
    init.pmmAddr = p ∧ init.pmmSize = size ∧
      (init.moduleAddr, init.moduleAddr + init.moduleLen) =
        (if mbi.hasMods then (mbi.mod.modStart, mbi.mod.modEnd) else (0, 0)) ∧
      MapInv init.physMemMap ∧
      (∀ f ∈ init.physMemMap, ∃ g ∈ fillPhysMmap mbi.mmap,
        g.addr ≤ f.addr ∧ f.addr + f.len ≤ g.addr + g.len) ∧
      ∀ lo hi, lo < hi → (Available init.physMemMap lo hi ↔
        Available (fillPhysMmap mbi.mmap) lo hi ∧
          Disjoint (Set.Ico lo hi) (rangeBytes (kernel.kernelStart, kernel.kernelEnd)) ∧
          Disjoint (Set.Ico lo hi) (rangeBytes (p, p + size)) ∧
          Disjoint (Set.Ico lo hi)
            (rangeBytes (if mbi.hasMods then (mbi.mod.modStart, mbi.mod.modEnd) else (0, 0)))) := by
  unfold reserveAll at h
  rw [Word32.sub_of_le (by omega) (by omega)] at h
  split at h
  · cases h
  next g₁ hk₁ =>
  split at h
  · cases h
  next g₂ hp₂ =>
  have h₁ := reserveRegion_spec hinv (by omega) (by omega) hk₁
  have h₂ := reserveRegion_spec h₁.inv hsize hp hp₂
  have hkend : kernel.kernelStart + (kernel.kernelEnd - kernel.kernelStart) = kernel.kernelEnd := by
    omega
  split_ifs at h with hmods
  · obtain ⟨hlt, hle⟩ := hmod hmods
    have hsub : Word32.sub mbi.mod.modEnd mbi.mod.modStart =
        mbi.mod.modEnd - mbi.mod.modStart := Word32.sub_of_le (by omega) (by omega)
    simp only [hsub] at h
    split at h
    · cases h
    next g₃ hm₃ =>
    have h₃ := reserveRegion_spec h₂.inv (by omega) (by omega) hm₃
    have hend : mbi.mod.modStart + (mbi.mod.modEnd - mbi.mod.modStart) = mbi.mod.modEnd := by omega
    obtain rfl := Option.some.inj h
    refine ⟨rfl, rfl, by simp [hmods, hend], h₃.inv, fun f hf => ?_, fun lo hi hlt => ?_⟩
    · obtain ⟨a, ha, hlo₃, hhi₃⟩ := h₃.part f hf
      obtain ⟨b, hb, hlo₂, hhi₂⟩ := h₂.part a ha
      obtain ⟨c, hc, hlo₁, hhi₁⟩ := h₁.part b hb
      exact ⟨c, hc, by omega, by omega⟩
    · rw [h₃.available lo hi hlt, h₂.available lo hi hlt, h₁.available lo hi hlt, hkend, hend,
        if_pos hmods]
      simp only [rangeBytes, and_assoc]
  · obtain rfl := Option.some.inj h
    refine ⟨rfl, rfl, by simp [hmods], h₂.inv, fun f hf => ?_, fun lo hi hlt => ?_⟩
    · obtain ⟨b, hb, hlo₂, hhi₂⟩ := h₂.part f hf
      obtain ⟨c, hc, hlo₁, hhi₁⟩ := h₁.part b hb
      exact ⟨c, hc, by omega, by omega⟩
    · rw [h₂.available lo hi hlt, h₁.available lo hi hlt, hkend, if_neg hmods]
      simp [rangeBytes, and_assoc]

section Areas

variable {kernel : KernelImage} {mbi : MultibootInfo} {flags : ℕ}

/-- With a module, its length is the difference of its ends. -/
theorem BootLayout.module_bounds (h : BootLayout kernel mbi) (hm : mbi.hasModule = true) :
    mbi.mod.modStart < mbi.mod.modEnd ∧ mbi.mod.modEnd ≤ 0xffc00000 ∧
      Word32.sub mbi.mod.modEnd mbi.mod.modStart = mbi.mod.modEnd - mbi.mod.modStart := by
  have hlt := h.module_nonempty hm
  have hle := h.areas_bounded mbi.module (by simp [MultibootInfo.areas])
  rw [MultibootInfo.module, if_pos hm] at hle
  simp only at hle
  exact ⟨hlt, hle, Word32.sub_of_le (by omega) (by omega)⟩

/-- The regions of the boot loader are areas in use. -/
theorem BootLayout.region_mem (h : BootLayout kernel mbi)
    (hhas : MultibootInfo.hasMods { mbi with flags := flags } = mbi.hasModule) {e : PhysMmapEntry}
    (he : e ∈ identifyMultibootRegions { mbi with flags := flags }) :
    (e.addr, e.addr + e.len) ∈ mbi.areas kernel := by
  rcases mem_identifyMultibootRegions.mp he with rfl | rfl | ⟨hm, rfl | rfl⟩
  · simp [MultibootInfo.areas]
  · simp [MultibootInfo.areas]
  · rw [hhas] at hm
    simp [MultibootInfo.areas, MultibootInfo.modHeader, hm]
  · rw [hhas] at hm
    obtain ⟨hlt, -, hsub⟩ := h.module_bounds hm
    have hend : mbi.mod.modStart + (mbi.mod.modEnd - mbi.mod.modStart) = mbi.mod.modEnd := by omega
    simp [MultibootInfo.areas, MultibootInfo.module, hm, hsub, hend]

/-- The other areas in use are the kernel, and empty ones in the place of a missing module. -/
theorem BootLayout.area_cases (h : BootLayout kernel mbi)
    (hhas : MultibootInfo.hasMods { mbi with flags := flags } = mbi.hasModule) {a : ℕ × ℕ}
    (ha : a ∈ mbi.areas kernel) :
    a = (0, 0) ∨ a = (kernel.kernelStart, kernel.kernelEnd) ∨
      ∃ e ∈ identifyMultibootRegions { mbi with flags := flags }, a = (e.addr, e.addr + e.len) := by
  simp only [MultibootInfo.areas, List.mem_cons, List.not_mem_nil, or_false] at ha
  rcases ha with rfl | rfl | rfl | rfl | rfl
  · exact .inr (.inr ⟨_, mem_identifyMultibootRegions.mpr (.inl rfl), rfl⟩)
  · exact .inr (.inr ⟨_, mem_identifyMultibootRegions.mpr (.inr (.inl rfl)), rfl⟩)
  · unfold MultibootInfo.modHeader
    split_ifs with hm
    · exact .inr (.inr ⟨_, mem_identifyMultibootRegions.mpr
        (.inr (.inr ⟨hhas.trans hm, .inl rfl⟩)), rfl⟩)
    · exact .inl rfl
  · unfold MultibootInfo.module
    split_ifs with hm
    · obtain ⟨hlt, -, hsub⟩ := h.module_bounds hm
      have hend : mbi.mod.modStart + (mbi.mod.modEnd - mbi.mod.modStart) = mbi.mod.modEnd := by
        omega
      refine .inr (.inr ⟨_, mem_identifyMultibootRegions.mpr
        (.inr (.inr ⟨hhas.trans hm, .inr rfl⟩)), ?_⟩)
      simp only [hsub, hend]
    · exact .inl rfl
  · exact .inr (.inl rfl)

end Areas

/-- **The map after `phys_mem_map_init`**, and the place of the map among the ranges that are
in use. -/
theorem bootMap_of_init {kernel : KernelImage} {mbi : MultibootInfo} {init : PhysMemMapInit}
    (hboot : BootLayout kernel mbi) (h : physMemMapInit kernel mbi = some init) :
    BootMap kernel mbi init ∧
      ∀ a ∈ mbi.areas kernel,
        Disjoint (rangeBytes (init.pmmAddr, init.pmmAddr + init.pmmSize)) (rangeBytes a) := by
  obtain ⟨mbi', p, hmods, hfind, hres⟩ := physMemMapInit_eq_some h
  obtain ⟨hmbi, hhas⟩ := checkMods_spec hmods
  obtain ⟨flags, rfl⟩ : ∃ flags, mbi' = { mbi with flags := flags } := ⟨_, hmbi⟩
  have hperm : (sortMultibootMmap { mbi with flags := flags }).mmap.Perm mbi.mmap :=
    BubbleSort.sort_perm _ _ _
  have hmmap : ∀ e ∈ (sortMultibootMmap { mbi with flags := flags }).mmap,
      0x100000000 ≤ e.addr ∨ e.addr + e.len ≤ 0xffc00000 :=
    fun e he => hboot.mmap_bounded e (hperm.mem_iff.mp he)
  have hkernel := hboot.areas_bounded (kernel.kernelStart, kernel.kernelEnd)
    (by simp [MultibootInfo.areas])
  obtain ⟨hsize, hsmall⟩ := physMemMapSize_bounds { mbi with flags := flags }
    hboot.mmapLength_lt
  have hregions : ∀ e ∈ identifyMultibootRegions { mbi with flags := flags },
      e.addr + e.len ≤ 0xffc00000 := fun e he => hboot.areas_bounded _ (hboot.region_mem hhas he)
  obtain ⟨hafter, hbefore⟩ := lt_pageAlign_kernelEnd (k := kernel.kernelEnd)
    (by omega)
  obtain ⟨hbehind, ⟨e, he, hseg, -, hend⟩, hapart⟩ := findPmmSegment_place
    (by omega)
    (fun e he hlt => by
      have := hmmap e he
      omega)
    (fun e he => by
      have := hregions e he
      omega)
    (identifyMultibootRegions_sorted _) hfind
  have hfits : p + physMemMapSize { mbi with flags := flags } ≤ 0xffc00000 :=
    hend.trans ((hmmap e he).resolve_left (by have := hseg.2.2; omega))
  have hbehind : kernel.kernelEnd < p := by omega
  obtain ⟨hpa, hps, hmodEq, hinv, hpart, havail⟩ := reserveAll_spec hres
    (mapInv_fillPhysMmap hmmap (hperm.symm.pairwise hboot.mmap_disjoint fun h => h.symm))
    hboot.kernel_nonempty hkernel hsize hfits fun hm => by
      obtain ⟨hlt, hle, -⟩ := hboot.module_bounds (hhas ▸ hm)
      exact ⟨hlt, hle⟩
  have hmodule_eq : (if (sortMultibootMmap { mbi with flags := flags }).hasMods then
      (mbi.mod.modStart, mbi.mod.modEnd) else (0, 0)) = mbi.module := by
    rw [MultibootInfo.module, ← hhas]
    rfl
  refine ⟨⟨hinv, fun e he => ?_, fun lo hi hlt => ?_, hmodEq.trans hmodule_eq,
    by rw [hpa, hps]; exact ⟨hbehind, hfits⟩⟩, ?_⟩
  · obtain ⟨g, hg, hlo, hhi⟩ := hpart e he
    obtain ⟨m, hm, -, rfl⟩ := (mem_fillPhysMmap hmmap).mp hg
    exact ⟨m, hperm.mem_iff.mp hm, hlo, hhi⟩
  · rw [havail lo hi hlt, available_fillPhysMmap hmmap, hpa, hps]
    simp only [hperm.mem_iff]
    rw [← hmodule_eq]
    rfl
  · have hrange : ∀ lo hi, (init.pmmAddr + init.pmmSize ≤ lo ∨ hi ≤ init.pmmAddr) →
        Disjoint (rangeBytes (init.pmmAddr, init.pmmAddr + init.pmmSize)) (rangeBytes (lo, hi)) := by
      intro lo hi h
      simp only [rangeBytes, Set.Ico_disjoint_Ico]
      omega
    rw [← hpa, ← hps] at hapart
    intro a ha
    obtain rfl | rfl | ⟨e, he, rfl⟩ := hboot.area_cases hhas ha
    · simp [rangeBytes]
    · exact hrange _ _ (.inr (by omega))
    · exact hrange _ _ (hapart e he)

end Ahos
