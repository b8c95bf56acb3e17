import Ahos.Mem.Pmm.Init

/-!
# The place of the map is the first that fits

`find_pmm_location` tries one place in each segment: the first page behind the kernel, moved behind
every structure of the boot loader that it meets. As long as the 32-bit end of this page does not
wrap, the place is free, and if no place is found there is no free page-aligned one.
-/

namespace Ahos

/-- The `size` bytes from `x` meet no region of the list. -/
def FreeOf (mbr : PhysMmap) (x size : ℕ) : Prop :=
  ∀ m ∈ mbr, Disjoint (Set.Ico x (x + size)) m.bytes

/-- The result of `find_pmm_location` is a free place in a segment behind the kernel, and if there
is none, no segment has a free page-aligned place behind the kernel. -/
structure FindsPlace (kernel : KernelImage) (mmap : List MultibootMmapEntry) (mbr : PhysMmap)
    (size : ℕ) (place : Option ℕ) : Prop where
  sound : ∀ a, place = some a → a ≠ 0xffffffff ∧ kernel.kernelEnd < a ∧
    (∃ e ∈ mmap, e.Segment ∧ Set.Ico a (a + size) ⊆ e.bytes) ∧ FreeOf mbr a size
  complete : place = none → ¬ ∃ e ∈ mmap, ∃ x, e.Segment ∧ x % 4096 = 0 ∧
    pageAlign (Word32.add kernel.kernelEnd 1) ≤ x ∧ Set.Ico x (x + size) ⊆ e.bytes ∧
      FreeOf mbr x size

section Candidate

variable {kernel : KernelImage} {mbr : PhysMmap} {mmap : List MultibootMmapEntry}
  {e : MultibootMmapEntry} {size p x : ℕ}

theorem Ico_subset_bytes (hsize : 0 < size) :
    Set.Ico x (x + size) ⊆ e.bytes ↔ e.addr ≤ x ∧ x + size ≤ e.addr + e.len :=
  Set.Ico_subset_Ico_iff (by omega)

/-- A place below a free page-aligned one is moved at most up to it. -/
theorem foldl_avoidRegion_le (hsize : 0 < size) (hx : x % 4096 = 0)
    (hend : x + size < 4294967296) (hfree : FreeOf mbr x size)
    (hmbr : ∀ m ∈ mbr, 0 < m.len ∧ m.addr + m.len + 4096 ≤ 4294967296) (hp : p ≤ x) :
    mbr.foldl (avoidRegion size) p ≤ x := by
  induction mbr generalizing p with
  | nil => exact hp
  | cons m mbr ih =>
    rw [List.foldl_cons]
    refine ih (fun n hn => hfree n (List.mem_cons_of_mem _ hn))
      (fun n hn => hmbr n (List.mem_cons_of_mem _ hn)) ?_
    obtain ⟨hlen, hm⟩ := hmbr m (List.mem_cons_self ..)
    by_cases hc : collides p size m.addr m.len = true
    · -- the free place lies behind the region as well
      rw [avoidRegion_of_collides hc hm]
      rw [collides_eq_true (by omega) (by omega)] at hc
      have hd := hfree m (List.mem_cons_self ..)
      rw [PhysMmapEntry.bytes, disjoint_ranges_iff (by omega) (by omega)] at hd
      omega
    · rw [avoidRegion_of_apart (Bool.eq_false_iff.mpr hc)]
      exact hp

/-- Without a place there is no free page-aligned place in a segment. -/
theorem findPmmSegment_complete (hsize : 0 < size)
    (hmmap : ∀ e ∈ mmap, e.addr < 4294967296 → e.addr + e.len + size < 4294967296)
    (hmbr : ∀ m ∈ mbr, 0 < m.len ∧ m.addr + m.len + 4096 ≤ 4294967296)
    (h : findPmmSegment kernel mbr size mmap = none) :
    ¬ ∃ e ∈ mmap, ∃ x, e.Segment ∧ x % 4096 = 0 ∧
      pageAlign (Word32.add kernel.kernelEnd 1) ≤ x ∧ Set.Ico x (x + size) ⊆ e.bytes ∧
        FreeOf mbr x size := by
  induction mmap with
  | nil => simp
  | cons e mmap ih =>
    have hrest := fun hnone => ih (fun f hf => hmmap f (List.mem_cons_of_mem _ hf)) hnone
    rintro ⟨f, hf, x, hseg, hx, hstart, hin, hfree⟩
    rcases findPmmSegment_cons kernel mbr size e mmap with ⟨hnot, heq⟩ | ⟨hseg', heq⟩
    · rw [heq] at h
      rcases List.mem_cons.mp hf with rfl | hf
      · exact hnot hseg
      · exact hrest h ⟨f, hf, x, hseg, hx, hstart, hin, hfree⟩
    · rw [heq] at h
      split_ifs at h with hfits
      rcases List.mem_cons.mp hf with rfl | hf
      · -- the candidate of the segment is not above the free place
        have hb := hmmap f (List.mem_cons_self ..) hseg.2.2
        rw [Ico_subset_bytes hsize] at hin
        have hle := foldl_avoidRegion_le (p := max (pageAlign (Word32.add kernel.kernelEnd 1)) f.addr)
          hsize hx (by omega) hfree hmbr (by omega)
        rw [← pmmCandidate_eq] at hle
        rw [segLen_of_lt (by omega), Word32.add_of_lt (by omega), Word32.add_of_lt (by omega)]
          at hfits
        omega
      · exact hrest h ⟨f, hf, x, hseg, hx, hstart, hin, hfree⟩

/-- A place whose end wraps to `0` is taken in the first segment, whatever lies there. -/
theorem findPmmSegment_wrapped (hwrap : pageAlign (Word32.add kernel.kernelEnd 1) + size = 4294967296)
    (hmmap : ∀ e ∈ mmap, e.addr < 4294967296 → e.addr + e.len + size < 4294967296)
    (he : e ∈ mmap) (hseg : e.Segment) :
    findPmmSegment kernel mbr size mmap = some (pageAlign (Word32.add kernel.kernelEnd 1)) := by
  have hzero : Word32.add (pageAlign (Word32.add kernel.kernelEnd 1)) size = 0 := by
    rw [Word32.add, hwrap]
    rfl
  have hcandidate : ∀ f ∈ mmap, f.Segment →
      pmmCandidate kernel mbr size f.addr = pageAlign (Word32.add kernel.kernelEnd 1) := by
    intro f hf hfs
    have := hmmap f hf hfs.2.2
    rw [pmmCandidate_eq, max_eq_left (by omega)]
    refine foldl_avoidRegion_of_apart fun m hm => ?_
    rw [collides, hzero, decide_eq_false_iff_not]
    omega
  induction mmap with
  | nil => cases he
  | cons f mmap ih =>
    rcases findPmmSegment_cons kernel mbr size f mmap with ⟨hnot, heq⟩ | ⟨hfs, heq⟩
    · rw [heq]
      refine ih (fun g hg => hmmap g (List.mem_cons_of_mem _ hg)) ?_
        fun g hg => hcandidate g (List.mem_cons_of_mem _ hg)
      exact (List.mem_cons.mp he).resolve_left fun hef => hnot (hef ▸ hseg)
    · rw [heq, hcandidate f (List.mem_cons_self ..) hfs, hzero, if_pos (Nat.zero_le _)]

end Candidate

/-- **`find_pmm_location` is a first fit**, sound and complete, for all structures that end a page
and the size of the map below 4 GB: if and only if the end of the first page behind the kernel does
not wrap to `0`, or there is no segment. -/
theorem find_pmm_location_first_fit (kernel : KernelImage) (mbi : MultibootInfo) (mbr : PhysMmap)
    (size : ℕ) (hsize : 0 < size) (hkernel : kernel.kernelEnd + 4096 + size ≤ 4294967296)
    (hmmap : ∀ e ∈ mbi.mmap, e.addr < 4294967296 → e.addr + e.len + 4096 + size ≤ 4294967296)
    (hmbr : ∀ m ∈ mbr, 0 < m.len ∧ m.addr + m.len + 4096 + size ≤ 4294967296)
    (hsorted : mbr.Pairwise fun m n => m.addr ≤ n.addr) :
    FindsPlace kernel mbi.mmap mbr size (findPmmLocation kernel mbi mbr size).1 ↔
      pageAlign (Word32.add kernel.kernelEnd 1) + size < 4294967296 ∨
        ∀ e ∈ mbi.mmap, ¬ e.Segment := by
  obtain ⟨hafter, hbefore⟩ := lt_pageAlign_kernelEnd (k := kernel.kernelEnd) (by omega)
  have hresult : (findPmmLocation kernel mbi mbr size).1 =
      findPmmSegment kernel mbr size (sortMultibootMmap mbi).mmap := by
    rw [findPmmLocation, if_neg (by omega)]
  have hperm : (sortMultibootMmap mbi).mmap.Perm mbi.mmap := BubbleSort.sort_perm _ _ _
  generalize (sortMultibootMmap mbi).mmap = mmap at hresult hperm
  have hbound : ∀ e ∈ mmap, e.addr < 4294967296 → e.addr + e.len + size < 4294967296 := by
    intro e he hlt
    have := hmmap e (hperm.mem_iff.mp he) hlt
    omega
  rw [hresult]
  constructor
  · -- a wrapped end finds a place outside every segment
    intro hfinds
    by_contra hnot
    rw [not_or, not_lt] at hnot
    obtain ⟨hwrap, hsome⟩ := hnot
    push Not at hsome
    obtain ⟨e, he, hseg⟩ := hsome
    obtain ⟨-, -, ⟨f, hf, hfs, hin⟩, -⟩ := hfinds.sound _
      (findPmmSegment_wrapped (by omega) hbound (hperm.mem_iff.mpr he) hseg)
    have := hmmap f hf hfs.2.2
    rw [Ico_subset_bytes hsize] at hin
    omega
  · rintro (hstart | hnone)
    · refine ⟨fun a ha => ?_, fun hnone => ?_⟩
      · obtain ⟨hle, ⟨e, he, hseg, hlo, hhi⟩, hap⟩ := findPmmSegment_place hstart hbound
          (fun m hm => (hmbr m hm).2) hsorted ha
        have := hbound e he hseg.2.2
        refine ⟨by omega, by omega, ⟨e, hperm.mem_iff.mp he, hseg,
          (Ico_subset_bytes hsize).mpr ⟨hlo, hhi⟩⟩, fun m hm => ?_⟩
        have := hap m hm
        rw [PhysMmapEntry.bytes, Set.Ico_disjoint_Ico]
        omega
      · have hcomplete := findPmmSegment_complete hsize hbound
          (fun m hm => ⟨(hmbr m hm).1, by have := (hmbr m hm).2; omega⟩) hnone
        rintro ⟨e, he, hplace⟩
        exact hcomplete ⟨e, hperm.mem_iff.mpr he, hplace⟩
    · refine ⟨fun a ha => ?_, fun _ => ?_⟩
      · obtain ⟨e, he, hseg, -⟩ := findPmmSegment_spec ha
        exact absurd hseg (hnone e (hperm.mem_iff.mp he))
      · rintro ⟨e, he, x, hseg, -⟩
        exact hnone e he hseg

/-- The theorem for a kernel of 1 MB, with the memory map behind it. -/
theorem find_pmm_location_first_fit_page :
    FindsPlace ⟨0x100000, 0x1ff800⟩ [⟨20, 0x100000, 0x7000000, 1⟩] [⟨0x200000, 24, .other 0⟩] 76
        (findPmmLocation ⟨0x100000, 0x1ff800⟩
          ⟨0x9000, 0x40, 0, 0, 24, 0x200000, [⟨20, 0x100000, 0x7000000, 1⟩], ⟨0, 0⟩⟩
          [⟨0x200000, 24, .other 0⟩] 76).1 ↔
      pageAlign (Word32.add 0x1ff800 1) + 76 < 4294967296 ∨
        ∀ e ∈ [(⟨20, 0x100000, 0x7000000, 1⟩ : MultibootMmapEntry)], ¬ e.Segment :=
  find_pmm_location_first_fit ⟨0x100000, 0x1ff800⟩
    ⟨0x9000, 0x40, 0, 0, 24, 0x200000, [⟨20, 0x100000, 0x7000000, 1⟩], ⟨0, 0⟩⟩
    [⟨0x200000, 24, .other 0⟩] 76 (by omega) (by simp) (by simp) (by simp) (by simp)

/-- The only segment ends with the kernel. The page behind it is returned for a size that fills the
rest of the address space, which the single caller, `phys_mem_map_init`, never passes. -/
theorem find_pmm_location_wraps :
    (findPmmLocation ⟨0x100000, 0x200000⟩
        ⟨0x9000, 0x40, 0, 0, 24, 0xa000, [⟨20, 0x100000, 0x100000, 1⟩], ⟨0, 0⟩⟩
        [⟨0x9000, 120, .other 0⟩, ⟨0xa000, 24, .other 0⟩] 0xffdff000).1 = some 0x201000 ∧
      ¬ FindsPlace ⟨0x100000, 0x200000⟩ [⟨20, 0x100000, 0x100000, 1⟩]
        [⟨0x9000, 120, .other 0⟩, ⟨0xa000, 24, .other 0⟩] 0xffdff000 (some 0x201000) := by
  refine ⟨by decide +kernel, fun h => ?_⟩
  obtain ⟨-, -, ⟨e, he, -, hin⟩, -⟩ := h.sound _ rfl
  obtain rfl := List.mem_singleton.mp he
  rw [Ico_subset_bytes (by omega)] at hin
  simp only at hin
  omega

end Ahos
