import Ahos.Mem.Pfa.Boundary
import Ahos.Mem.Pmm.Init

/-!
# Memory ownership at boot

`phys_mem_map_init` followed by `pfa_init`: the page frames that the allocator
covers are the pages of high memory that lie inside one available entry of the
multiboot map, below 4 GB, and meet neither the kernel, nor the memory map, nor
the module, nor the metadata of the allocator; and no frame is covered twice.
-/

namespace Ahos

/-- The page frame at `f` is one of the pages of the region. -/
def PfaRegion.Covers (r : PfaRegion) (f : ℕ) : Prop :=
  ∃ k < r.nbPages, f = r.firstPage + 4096 * k

/-- The page frame at `f` is a page of some region. -/
def Covered (pfa : PfaMeta) (f : ℕ) : Prop := ∃ r ∈ pfa, r.Covers f

theorem PfaRegion.covers_iff {r : PfaRegion} {f : ℕ} (h : r.firstPage % 4096 = 0) :
    r.Covers f ↔ f % 4096 = 0 ∧ r.firstPage ≤ f ∧ f + 4096 ≤ r.endAddr := by
  unfold Covers endAddr
  constructor
  · rintro ⟨k, hk, rfl⟩
    omega
  · rintro ⟨hf, hlo, hhi⟩
    exact ⟨(f - r.firstPage) / 4096, by omega, by omega⟩

theorem MapInv.lt {pmm : PhysMmap} (h : MapInv pmm) {e : PhysMmapEntry} (he : e ∈ pmm) :
    e.addr + e.len < 4294967296 := by
  have := h.bounded e he
  omega

/-! ## The regions of `pfa_init` -/

section Region

variable {e : PhysMmapEntry} {f : ℕ}

/-- A valid entry starts on or before the last page. -/
theorem le_of_valid (hb : e.addr + e.len < 4294967296) (hv : isValidRegion e = true) :
    e.addr ≤ 4294963200 := by
  obtain ⟨-, -, hend, hlen⟩ := isValidRegion_iff.mp hv
  by_contra hlt
  have hoff : e.addr % 4096 ≠ 0 := by omega
  -- the start of the next page wraps to the first one
  have hwrap : pageAlign e.addr ≤ Word32.add e.addr 4096 := by
    rw [pageAlign, pageOffset_eq, if_pos hoff]
    exact Nat.and_le_left
  have hadd : Word32.add e.addr 4096 = e.addr + 4096 - 4294967296 := by
    unfold Word32.add Word32.wrap
    omega
  have := (hend hoff).1
  omega

/-- The length behind the first page boundary of a valid entry. -/
theorem alignedLen_of_valid (hb : e.addr + e.len < 4294967296) (hv : isValidRegion e = true) :
    pageAlign e.addr = 4096 * ((e.addr + 4095) / 4096) ∧
      alignedLen e = e.addr + e.len - 4096 * ((e.addr + 4095) / 4096) ∧
      4096 ≤ e.addr + e.len - 4096 * ((e.addr + 4095) / 4096) := by
  obtain ⟨-, -, hend, hlen⟩ := isValidRegion_iff.mp hv
  have hpa := pageAlign_eq (x := e.addr) (le_of_valid hb hv)
  have hsum : e.endAddr = e.addr + e.len := Word32.add_of_lt hb
  rw [hsum, hpa] at hend
  have halen : alignedLen e = e.addr + e.len - 4096 * ((e.addr + 4095) / 4096) := by
    unfold alignedLen
    rw [hpa, pageOffset_eq]
    split_ifs with ho
    · obtain ⟨hle, hlt⟩ := hend ho
      rw [Word32.sub_of_le hle (by omega), Word32.sub_of_le (by omega) (by omega)]
      omega
    · omega
  exact ⟨hpa, halen, by omega⟩

/-- The pages of a valid entry are the pages that lie inside it. -/
theorem covers_initPfaRegion (hb : e.addr + e.len < 4294967296) (hv : isValidRegion e = true) :
    (initPfaRegion e).Covers f ↔ f % 4096 = 0 ∧ e.addr ≤ f ∧ f + 4096 ≤ e.addr + e.len := by
  obtain ⟨hpa, hlen, hpos⟩ := alignedLen_of_valid hb hv
  rw [PfaRegion.covers_iff (pageAlign_mod _), PfaRegion.endAddr, nbPages_initPfaRegion, hlen]
  simp only [initPfaRegion, hpa]
  omega

/-- A valid entry contains its region. -/
theorem initPfaRegion_inside (hb : e.addr + e.len < 4294967296) (hv : isValidRegion e = true) :
    e.addr ≤ (initPfaRegion e).firstPage ∧ (initPfaRegion e).endAddr ≤ e.addr + e.len := by
  obtain ⟨hpa, hlen, hpos⟩ := alignedLen_of_valid hb hv
  rw [PfaRegion.endAddr, nbPages_initPfaRegion, hlen]
  simp only [initPfaRegion, hpa]
  omega

/-- The hosting region starts behind the metadata and ends where the entry's region ends. -/
theorem hostRegion_inside (hb : e.addr + e.len < 4294967296) (hv : isValidRegion e = true)
    {size : ℕ} (hmod : size % 4096 = 0) (hsize : size ≤ alignedLen e) :
    (hostRegion size (initPfaRegion e)).firstPage = pageAlign e.addr + size ∧
      (hostRegion size (initPfaRegion e)).endAddr = (initPfaRegion e).endAddr := by
  obtain ⟨hpa, hlen, hpos⟩ := alignedLen_of_valid hb hv
  have hfirst : (hostRegion size (initPfaRegion e)).firstPage = pageAlign e.addr + size :=
    Word32.add_of_lt (by simp only [initPfaRegion]; omega)
  have hpages := nbPages_hostRegion (e := e) (by omega) hsize
  refine ⟨hfirst, ?_⟩
  rw [PfaRegion.endAddr, PfaRegion.endAddr, hpages, hfirst, nbPages_initPfaRegion]
  simp only [initPfaRegion]
  omega

/-- The pages of the hosting region are the pages of its entry behind the metadata. -/
theorem covers_hostRegion (hb : e.addr + e.len < 4294967296) (hv : isValidRegion e = true)
    {size : ℕ} (hmod : size % 4096 = 0) (hsize : size ≤ alignedLen e) :
    (hostRegion size (initPfaRegion e)).Covers f ↔
      (initPfaRegion e).Covers f ∧ pageAlign e.addr + size ≤ f := by
  obtain ⟨hfirst, hend⟩ := hostRegion_inside hb hv hmod hsize
  have halign := pageAlign_mod e.addr
  rw [PfaRegion.covers_iff (by omega), PfaRegion.covers_iff (pageAlign_mod _), hend, hfirst]
  simp only [initPfaRegion]
  omega

/-- A page of high memory inside an available entry makes the entry valid. -/
theorem isValidRegion_of_page (hb : e.addr + e.len ≤ 0xffc00000)
    (hlow : e.addr + e.len ≤ 0x100000 ∨ 0x100000 ≤ e.addr) (ht : e.type = .available)
    (hf : f % 4096 = 0) (hhigh : 0x100000 ≤ f) (hlo : e.addr ≤ f) (hhi : f + 4096 ≤ e.addr + e.len) :
    isValidRegion e = true := by
  have hpa := pageAlign_eq (x := e.addr) (by omega)
  refine isValidRegion_iff.mpr ⟨ht, by omega, fun ho => ?_, ?_⟩
  · rw [endAddr_of_bounded hb, hpa]
    omega
  · unfold alignedLen
    rw [hpa, pageOffset_eq]
    split_ifs with ho
    · have hsub : Word32.sub (4096 * ((e.addr + 4095) / 4096)) e.addr =
          4096 * ((e.addr + 4095) / 4096) - e.addr := Word32.sub_of_le (by omega) (by omega)
      rw [hsub, Word32.sub_of_le (by omega) (by omega)]
      omega
    · omega

end Region

/-! ## The covered frames -/

/-- The bytes of the metadata of the allocator. -/
def PfaInitState.metaBytes (st : PfaInitState) : Set ℕ :=
  rangeBytes (st.pfaMeta, st.pfaMeta + 4096 * st.pfaMetaReservedPages)

/-- The region that `pfa_init` makes of an entry, when `host` hosts the metadata. -/
def regionOf (host : PhysMmapEntry) (size : ℕ) (e : PhysMmapEntry) : PfaRegion :=
  if e = host then hostRegion size (initPfaRegion e) else initPfaRegion e

/-- With entries that do not overlap, every valid entry is one region, and its pages are
those of the entry that do not meet the metadata. -/
theorem pfaInit_regionOf {pmm : PhysMmap} {st : PfaInitState}
    (hlt : ∀ e ∈ pmm, e.addr + e.len < 4294967296)
    (hd : pmm.Pairwise fun e f => Disjoint e.bytes f.bytes)
    (h : pfaInit pmm = .ok (some st)) :
    ∃ host size, st.pfa = (pmm.filter isValidRegion).map (regionOf host size) ∧
      (∀ e ∈ pmm, isValidRegion e = true → (regionOf host size e).firstPage % 4096 = 0 ∧
        e.addr ≤ (regionOf host size e).firstPage ∧
        (regionOf host size e).endAddr ≤ e.addr + e.len) ∧
      ∀ e ∈ pmm, isValidRegion e = true → ∀ f, (regionOf host size e).Covers f ↔
        (initPfaRegion e).Covers f ∧ Disjoint (Set.Ico f (f + 4096)) st.metaBytes := by
  obtain ⟨l, host, r, hpmm, hvalid, hsize, hmeta, hpages, hpfa⟩ := pfaInit_regions h
  have hmod := pfaMetaSize_mod pmm
  have hhost := hlt host (by rw [hpmm]; simp)
  obtain ⟨hpa, hlen, hpos⟩ := alignedLen_of_valid hhost hvalid
  rw [hpmm, List.pairwise_append, List.pairwise_cons] at hd
  obtain ⟨-, ⟨hdr, -⟩, hdl⟩ := hd
  have hne : ∀ e, Disjoint e.bytes host.bytes → e ≠ host := by
    rintro e hdis rfl
    rw [disjoint_bytes_iff] at hdis
    omega
  have hother : ∀ e ∈ pmm, e ≠ host → Disjoint e.bytes host.bytes := by
    intro e he hne
    rw [hpmm, List.mem_append, List.mem_cons] at he
    rcases he with he | rfl | he
    · exact hdl e he host (List.mem_cons_self ..)
    · exact absurd rfl hne
    · exact (hdr e he).symm
  refine ⟨host, pfaMetaSize pmm, ?_, fun e he hv => ?_, fun e he hv f => ?_⟩
  · have hplain : ∀ part : PhysMmap, (∀ e ∈ part, e ≠ host) →
        (part.filter isValidRegion).map initPfaRegion =
          (part.filter isValidRegion).map (regionOf host (pfaMetaSize pmm)) := by
      intro part hpart
      refine List.map_congr_left fun e he => ?_
      rw [regionOf, if_neg (hpart e (List.mem_filter.mp he).1)]
    rw [hpfa, hplain l fun e he => hne e (hdl e he host (List.mem_cons_self ..)),
      hplain r fun e he => hne e (hdr e he).symm]
    generalize pfaMetaSize pmm = size
    rw [hpmm, List.filter_append, List.filter_cons_of_pos hvalid, List.map_append, List.map_cons]
    simp [regionOf]
  · obtain ⟨hlo, hhi⟩ := initPfaRegion_inside (hlt e he) hv
    by_cases heq : e = host
    · subst heq
      obtain ⟨hfirst, hend⟩ := hostRegion_inside hhost hvalid hmod hsize
      have halign := pageAlign_mod e.addr
      have hle := le_pageAlign_of_valid hv
      rw [regionOf, if_pos rfl, hfirst, hend]
      exact ⟨by omega, by omega, hhi⟩
    · rw [regionOf, if_neg heq]
      exact ⟨pageAlign_mod _, hlo, hhi⟩
  · have hbytes : st.metaBytes =
        Set.Ico (pageAlign host.addr) (pageAlign host.addr + pfaMetaSize pmm) := by
      rw [PfaInitState.metaBytes, rangeBytes, hmeta, hpages]
      congr 1
      omega
    rw [hbytes, Set.Ico_disjoint_Ico]
    by_cases heq : e = host
    · subst heq
      rw [regionOf, if_pos rfl, covers_hostRegion hhost hvalid hmod hsize]
      refine and_congr_right fun hf => ?_
      obtain ⟨hf, hlo, -⟩ := (covers_initPfaRegion hhost hvalid).mp hf
      omega
    · -- the metadata lies inside the entry of the host
      rw [regionOf, if_neg heq, iff_self_and]
      intro hf
      have hdis := hother e he heq
      rw [disjoint_bytes_iff] at hdis
      rw [covers_initPfaRegion (hlt e he) hv] at hf
      omega

/-- **The frames that `pfa_init` covers**: the pages of high memory that lie inside one
available entry and do not meet the metadata. No frame is covered by two regions. -/
theorem pfaInit_covered {pmm : PhysMmap} {st : PfaInitState} (hinv : MapInv pmm)
    (hlow : ∀ e ∈ pmm, e.addr + e.len ≤ 0x100000 ∨ 0x100000 ≤ e.addr)
    (h : pfaInit pmm = .ok (some st)) :
    (∀ f, Covered st.pfa f ↔ f % 4096 = 0 ∧ 0x100000 ≤ f ∧ Available pmm f (f + 4096) ∧
      Disjoint (Set.Ico f (f + 4096)) st.metaBytes) ∧
    st.pfa.Pairwise fun r s => ∀ f, r.Covers f → ¬ s.Covers f := by
  obtain ⟨host, size, hpfa, -, hcovers⟩ := pfaInit_regionOf (fun e he => hinv.lt he) hinv.disjoint h
  constructor
  · intro f
    simp only [Covered, hpfa, List.mem_map, List.mem_filter]
    constructor
    · rintro ⟨_, ⟨e, ⟨he, hv⟩, rfl⟩, hf⟩
      obtain ⟨hf, hdis⟩ := (hcovers e he hv f).mp hf
      obtain ⟨ht, hhigh, -, -⟩ := isValidRegion_iff.mp hv
      obtain ⟨hmod, hlo, hhi⟩ := (covers_initPfaRegion (hinv.lt he) hv).mp hf
      exact ⟨hmod, by omega, ⟨e, he, ht, hlo, hhi⟩, hdis⟩
    · rintro ⟨hf, hhigh, ⟨e, he, ht, hlo, hhi⟩, hdis⟩
      have hv := isValidRegion_of_page (hinv.bounded e he) (hlow e he) ht hf hhigh hlo hhi
      exact ⟨_, ⟨e, ⟨he, hv⟩, rfl⟩, (hcovers e he hv f).mpr
        ⟨(covers_initPfaRegion (hinv.lt he) hv).mpr ⟨hf, hlo, hhi⟩, hdis⟩⟩
  · rw [hpfa, List.pairwise_map]
    refine (List.Pairwise.and_mem.mp (hinv.disjoint.filter _)).imp ?_
    rintro e e' ⟨he, he', hdis⟩ f hf hf'
    obtain ⟨he, hv⟩ := List.mem_filter.mp he
    obtain ⟨he', hv'⟩ := List.mem_filter.mp he'
    have hpage := (covers_initPfaRegion (hinv.lt he) hv).mp ((hcovers e he hv f).mp hf).1
    have hpage' :=
      (covers_initPfaRegion (hinv.lt he') hv').mp ((hcovers e' he' hv' f).mp hf').1
    rw [disjoint_bytes_iff] at hdis
    omega

/-- **`pfa_init` establishes the start of the allocator's runs**: all pages are free, and the
regions are page aligned, in high memory, below the window and disjoint. -/
theorem pfaInit_start {pmm : PhysMmap} {st : PfaInitState} (hinv : MapInv pmm)
    (h : pfaInit pmm = .ok (some st)) :
    PfaStart st.pfa ∧ ∀ r ∈ st.pfa, 0 < r.nbPages → r.endAddr ≤ 0xffc00000 := by
  obtain ⟨host, size, hpfa, hinside, -⟩ := pfaInit_regionOf (fun e he => hinv.lt he) hinv.disjoint h
  have hregion : ∀ r ∈ st.pfa, 0x100000 ≤ r.firstPage ∧ r.firstPage % 4096 = 0 ∧
      r.endAddr ≤ 0xffc00000 := by
    intro r hr
    rw [hpfa, List.mem_map] at hr
    obtain ⟨e, he, rfl⟩ := hr
    obtain ⟨he, hv⟩ := List.mem_filter.mp he
    obtain ⟨halign, hlo, hhi⟩ := hinside e he hv
    obtain ⟨-, hhigh, -, -⟩ := isValidRegion_iff.mp hv
    have := hinv.bounded e he
    exact ⟨by omega, halign, by omega⟩
  refine ⟨⟨pfaInit_free h, fun r hr _ => (hregion r hr).1, ?_, ?_, ?_⟩,
    fun r hr _ => (hregion r hr).2.2⟩
  · simp only [shape, List.mem_map]
    rintro _ ⟨r, hr, rfl⟩ -
    exact (hregion r hr).2.1
  · simp only [shape, List.mem_map]
    rintro _ ⟨r, hr, rfl⟩ -
    have := (hregion r hr).2.2
    rw [PfaRegion.endAddr] at this
    simp only
    omega
  · rw [shape, List.pairwise_map, hpfa, List.pairwise_map]
    refine (List.Pairwise.and_mem.mp (hinv.disjoint.filter _)).imp ?_
    rintro e e' ⟨he, he', hdis⟩ hpos hpos'
    obtain ⟨he, hv⟩ := List.mem_filter.mp he
    obtain ⟨he', hv'⟩ := List.mem_filter.mp he'
    obtain ⟨-, hlo, hhi⟩ := hinside e he hv
    obtain ⟨-, hlo', hhi'⟩ := hinside e' he' hv'
    rw [disjoint_bytes_iff] at hdis
    rw [PfaRegion.endAddr] at hhi hhi'
    omega

/-- The metadata lies inside one available entry of high memory. -/
theorem pfaInit_metadata {pmm : PhysMmap} {st : PfaInitState} (hinv : MapInv pmm)
    (h : pfaInit pmm = .ok (some st)) :
    st.pfaMeta % 4096 = 0 ∧ 0x100000 ≤ st.pfaMeta ∧
      Available pmm st.pfaMeta (st.pfaMeta + 4096 * st.pfaMetaReservedPages) := by
  obtain ⟨l, host, r, hpmm, hvalid, hsize, hmeta, hpages, -⟩ := pfaInit_regions h
  have hmem : host ∈ pmm := by rw [hpmm]; simp
  obtain ⟨hpa, hlen, hpos⟩ := alignedLen_of_valid (hinv.lt hmem) hvalid
  obtain ⟨ht, hhigh, -, -⟩ := isValidRegion_iff.mp hvalid
  have hmod := pfaMetaSize_mod pmm
  rw [hmeta, hpages, hpa]
  exact ⟨by omega, by omega, host, hmem, ht, by omega, by omega⟩

/-- A page of high memory inside one available entry of the multiboot map that meets neither
the kernel, nor the memory map, nor the module, nor the metadata of the allocator. -/
def UnclaimedPage (kernel : KernelImage) (mbi : MultibootInfo) (init : PhysMemMapInit)
    (st : PfaInitState) (f : ℕ) : Prop :=
  f % 4096 = 0 ∧ 0x100000 ≤ f ∧
    (∃ e ∈ mbi.mmap, e.type = 1 ∧ Set.Ico f (f + 4096) ⊆ e.bytes) ∧
    Disjoint (Set.Ico f (f + 4096)) (rangeBytes (kernel.kernelStart, kernel.kernelEnd)) ∧
    Disjoint (Set.Ico f (f + 4096)) (rangeBytes (init.pmmAddr, init.pmmAddr + init.pmmSize)) ∧
    Disjoint (Set.Ico f (f + 4096)) (rangeBytes mbi.module) ∧
    Disjoint (Set.Ico f (f + 4096)) st.metaBytes

/-- **Memory ownership at boot.** After a successful `phys_mem_map_init` and `pfa_init`, the
allocator covers exactly the unclaimed pages below 4 GB, and no frame twice. -/
theorem boot_memory_ownership {kernel : KernelImage} {mbi : MultibootInfo}
    {init : PhysMemMapInit} {st : PfaInitState} (hboot : BootInfo kernel mbi)
    (hlow : ∀ e ∈ mbi.mmap, e.addr + e.len ≤ 0x100000 ∨ 0x100000 ≤ e.addr)
    (hpmm : physMemMapInit kernel mbi = some init)
    (hpfa : pfaInit init.physMemMap = .ok (some st)) :
    (∀ f, Covered st.pfa f ↔ f < 0x100000000 ∧ UnclaimedPage kernel mbi init st f) ∧
    st.pfa.Pairwise fun r s => ∀ f, r.Covers f → ¬ s.Covers f := by
  obtain ⟨hmap, -⟩ := bootMap_of_init hboot.toBootLayout hpmm
  obtain ⟨hcovered, honce⟩ := pfaInit_covered hmap.inv (fun f hf => by
    obtain ⟨e, he, hlo, hhi⟩ := hmap.part f hf
    have := hlow e he
    omega) hpfa
  refine ⟨fun f => ?_, honce⟩
  -- an entry that contains a page below 4 GB starts below 4 GB, and conversely
  have hentry : (∃ e ∈ mbi.mmap, e.type = 1 ∧ e.addr < 0x100000000 ∧ e.addr ≤ f ∧
      f + 4096 ≤ e.addr + e.len) ↔
      f < 0x100000000 ∧ ∃ e ∈ mbi.mmap, e.type = 1 ∧ Set.Ico f (f + 4096) ⊆ e.bytes := by
    simp only [MultibootMmapEntry.bytes, Set.Ico_subset_Ico_iff (show f < f + 4096 by omega)]
    constructor
    · rintro ⟨e, he, ht, hlt, hlo, hhi⟩
      have := hboot.mmap_bounded e he
      exact ⟨by omega, e, he, ht, hlo, hhi⟩
    · rintro ⟨hlt, e, he, ht, hlo, hhi⟩
      exact ⟨e, he, ht, by omega, hlo, hhi⟩
  rw [hcovered f, hmap.available f (f + 4096) (by omega), hentry, UnclaimedPage]
  constructor
  · rintro ⟨hpage, hhigh, ⟨⟨hlt, he⟩, hkernel, hpmm, hmodule⟩, hmeta⟩
    exact ⟨hlt, hpage, hhigh, he, hkernel, hpmm, hmodule, hmeta⟩
  · rintro ⟨hlt, hpage, hhigh, he, hkernel, hpmm, hmodule, hmeta⟩
    exact ⟨hpage, hhigh, ⟨⟨hlt, he⟩, hkernel, hpmm, hmodule⟩, hmeta⟩

/-! ## A machine with memory above 4 GB -/

/-- A kernel of five pages at 1 MB. -/
def bigKernel : KernelImage := ⟨0x100000, 0x105000⟩

/-- A map in no particular order, with 1 GB behind the 4 GB boundary and a module. -/
def bigMbi : MultibootInfo where
  addr := 0x9000
  flags := 0x48
  modsCount := 1
  modsAddr := 0x9200
  mmapLength := 72
  mmapAddr := 0x9100
  mmap := [⟨20, 0x100000000, 0x40000000, 1⟩, ⟨20, 0x100000, 0x20000, 1⟩, ⟨20, 0, 0x9f000, 1⟩]
  mod := ⟨0x110000, 0x110800⟩

/-- What `phys_mem_map_init` makes of it. -/
def bigInit : PhysMemMapInit where
  physMemMap :=
    [⟨0, 0x9f000, .available⟩, ⟨0x100000, 0x5000, .reserved⟩, ⟨0x105000, 0x1000, .available⟩,
      ⟨0x106000, 220, .reserved⟩, ⟨0x1060dc, 0x9f24, .available⟩, ⟨0x110000, 0x800, .reserved⟩,
      ⟨0x110800, 0xf800, .available⟩]
  pmmAddr := 0x106000
  pmmSize := 220
  moduleAddr := 0x110000
  moduleLen := 0x800

/-- What `pfa_init` makes of it: the metadata takes the page behind the kernel. -/
def bigPfa : PfaInitState where
  pfaMeta := 0x105000
  pfaMetaReservedPages := 1
  pfa := [⟨0x106000, []⟩, ⟨0x107000, List.replicate 9 .free⟩, ⟨0x111000, List.replicate 15 .free⟩]
  physMemMap :=
    [⟨0, 0x9f000, .available⟩, ⟨0x100000, 0x5000, .reserved⟩, ⟨0x105000, 0x1000, .reserved⟩,
      ⟨0x106000, 220, .reserved⟩, ⟨0x1060dc, 0x9f24, .reserved⟩, ⟨0x110000, 0x800, .reserved⟩,
      ⟨0x110800, 0xf800, .reserved⟩]

theorem bootInfo_big : BootInfo bigKernel bigMbi where
  mmapLength_eq := by decide
  mmapLength_lt := by decide
  size := by decide
  mmap_disjoint := by
    simp [bigMbi, MultibootMmapEntry.bytes, Set.Ico_disjoint_Ico]
  mmap_bounded := by decide
  kernel_nonempty := by decide
  module_nonempty := by decide
  areas_disjoint := by
    simp [MultibootInfo.areas, MultibootInfo.modHeader, MultibootInfo.module, rangeBytes,
      MultibootInfo.hasModule, MultibootInfo.hasMods, multibootInfoMods, bigMbi, bigKernel,
      Set.Ico_disjoint_Ico]
  areas_bounded := by decide

theorem physMemMapInit_big : physMemMapInit bigKernel bigMbi = some bigInit := by decide +kernel

theorem pfaInit_big : pfaInit bigInit.physMemMap = .ok (some bigPfa) := by decide +kernel

/-- The first page behind the module is covered, because it is unclaimed. -/
theorem boot_memory_ownership_big :
    Covered bigPfa.pfa 0x111000 ∧ UnclaimedPage bigKernel bigMbi bigInit bigPfa 0x111000 := by
  have hcov : Covered bigPfa.pfa 0x111000 :=
    ⟨⟨0x111000, List.replicate 15 .free⟩, by simp [bigPfa], 0, by decide, rfl⟩
  exact ⟨hcov, (((boot_memory_ownership bootInfo_big (by decide) physMemMapInit_big pfaInit_big).1
    0x111000).mp hcov).2⟩

/-- The first page behind 4 GB is an unclaimed page that the allocator does not cover. -/
theorem boot_above_4gb_not_covered :
    BootInfo bigKernel bigMbi ∧
      (∀ e ∈ bigMbi.mmap, e.addr + e.len ≤ 0x100000 ∨ 0x100000 ≤ e.addr) ∧
      physMemMapInit bigKernel bigMbi = some bigInit ∧
      pfaInit bigInit.physMemMap = .ok (some bigPfa) ∧
      UnclaimedPage bigKernel bigMbi bigInit bigPfa 0x100000000 ∧
      ¬ Covered bigPfa.pfa 0x100000000 := by
  refine ⟨bootInfo_big, by decide, physMemMapInit_big, pfaInit_big, ?_, ?_⟩
  · refine ⟨by decide, by decide, ⟨⟨20, 0x100000000, 0x40000000, 1⟩, by simp [bigMbi], rfl, ?_⟩,
      ?_, ?_, ?_, ?_⟩
    · exact Set.Ico_subset_Ico (by decide) (by decide)
    · simp [rangeBytes, bigKernel, Set.Ico_disjoint_Ico]
    · simp [rangeBytes, bigInit, Set.Ico_disjoint_Ico]
    · simp [rangeBytes, MultibootInfo.module, MultibootInfo.hasModule, MultibootInfo.hasMods,
        multibootInfoMods, bigMbi, Set.Ico_disjoint_Ico]
    · simp [PfaInitState.metaBytes, rangeBytes, bigPfa, Set.Ico_disjoint_Ico]
  · rintro ⟨r, hr, k, hk, hf⟩
    simp only [bigPfa, List.mem_cons, List.not_mem_nil, or_false] at hr
    rcases hr with rfl | rfl | rfl <;>
      simp only [PfaRegion.nbPages, List.length_replicate, List.length_nil] at hk hf <;> omega

end Ahos
