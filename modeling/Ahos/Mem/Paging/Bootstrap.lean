import Ahos.Mem.Boot
import Ahos.Mem.Paging.Setup

/-!
# Bootstrap mapping after the memory map

`bootstrap_mapping` rounds the end of the kernel, which is exclusive, as if it were
inclusive. With a kernel that ends on a page boundary it also maps the page behind the
kernel, which may be the first page of the metadata of the allocator or of the module.
This module states exactly for which layouts the setup of paging succeeds and maps the
four areas to themselves.
-/

namespace Ahos

/-- The areas that `bootstrap_mapping` finds after `phys_mem_map_init` and `pfa_init`. -/
def bootRanges (kernel : KernelImage) (init : PhysMemMapInit) (st : PfaInitState) : BootRanges where
  kernelStart := kernel.kernelStart
  kernelEnd := kernel.kernelEnd
  pfaMeta := st.pfaMeta
  pfaMetaReservedPages := st.pfaMetaReservedPages
  moduleAddr := init.moduleAddr
  moduleLen := init.moduleLen

/-- The kernel ends on a page boundary, and the metadata or the module starts right behind it. -/
def BootRanges.AbutsKernel (env : BootRanges) : Prop :=
  env.kernelEnd % 4096 = 0 ∧
    (0 < env.pfaMetaReservedPages ∧ env.pfaMeta = env.kernelEnd ∨
      0 < env.moduleLen ∧ env.moduleAddr = env.kernelEnd)

/-- The module meets the video memory. -/
def BootRanges.ModuleInVram (env : BootRanges) : Prop :=
  0 < env.moduleLen ∧ env.moduleAddr < 0x100000 ∧ 0xa0000 < env.moduleAddr + env.moduleLen

/-- The bytes of the four areas. -/
def BootRanges.InArea (env : BootRanges) (b : ℕ) : Prop :=
  env.kernelStart ≤ b ∧ b < env.kernelEnd ∨ 0xa0000 ≤ b ∧ b < 0x100000 ∨
    env.pfaMeta ≤ b ∧ b < env.pfaMeta + 4096 * env.pfaMetaReservedPages ∨
    env.moduleAddr ≤ b ∧ b < env.moduleAddr + env.moduleLen

/-- How the areas lie: page aligned, in the order of the linker script, and apart from each
other. -/
structure BootRanges.Apart (env : BootRanges) : Prop where
  below : env.Below
  start : env.kernelStart = 0x100000
  kernel : env.kernelStart < env.kernelEnd
  meta_align : env.pfaMeta % 4096 = 0
  meta_kernel : 0 < env.pfaMetaReservedPages → env.kernelEnd ≤ env.pfaMeta
  meta_module : 0 < env.pfaMetaReservedPages → 0 < env.moduleLen →
    env.pfaMeta + 4096 * env.pfaMetaReservedPages ≤ env.moduleAddr ∨
      env.moduleAddr + env.moduleLen ≤ env.pfaMeta
  module_align : 0 < env.moduleLen → env.moduleAddr % 4096 = 0
  module_kernel : 0 < env.moduleLen →
    env.moduleAddr + env.moduleLen ≤ env.kernelStart ∨ env.kernelEnd ≤ env.moduleAddr

/-! ## The pages that are requested -/

section Pages

variable {env : BootRanges}

theorem mem_kernelPages (h : env.Apart) {a : ℕ} :
    a ∈ kernelPages env ↔ a % 4096 = 0 ∧ 0x100000 ≤ a ∧ a ≤ env.kernelEnd := by
  have hend := h.below.kernel
  rw [kernelPages, mem_pagesIn, h.start, pageAlign_eq (by omega)]
  omega

theorem mem_vramPages {a : ℕ} : a ∈ vramPages ↔ a % 4096 = 0 ∧ 0xa0000 ≤ a ∧ a < 0x100000 := by
  rw [vramPages, mem_pagesIn]
  omega

theorem mem_metaPages (h : env.Apart) {a : ℕ} :
    a ∈ metaPages env ↔ a % 4096 = 0 ∧ env.pfaMeta ≤ a ∧
      a < env.pfaMeta + 4096 * env.pfaMetaReservedPages := by
  have halign := h.meta_align
  rw [metaPages, mem_pagesIn]
  omega

theorem mem_modulePages (h : env.Apart) {a : ℕ} :
    a ∈ modulePages env ↔ a % 4096 = 0 ∧ env.moduleAddr ≤ a ∧
      a < env.moduleAddr + env.moduleLen := by
  have hend := h.below.module
  unfold modulePages
  split_ifs with hlen
  · simp only [List.not_mem_nil, false_iff]
    omega
  · have halign := h.module_align (by omega)
    rw [mem_pagesIn, pageMask_eq (by omega)]
    omega

/-- All pages that are requested are page aligned. -/
theorem bootPages_align (h : env.Apart) : ∀ a ∈ bootPages env, a % 4096 = 0 := by
  intro a ha
  simp only [bootPages, List.mem_append, mem_kernelPages h, mem_vramPages, mem_metaPages h,
    mem_modulePages h] at ha
  omega

/-- Every byte of the four areas lies on a page that is requested. -/
theorem page_mem_bootPages (h : env.Apart) {b : ℕ} (hb : env.InArea b) :
    4096 * (b / 4096) ∈ bootPages env := by
  have hstart := h.start
  have hmeta := h.meta_align
  have hmod := h.module_align
  simp only [bootPages, List.mem_append, mem_kernelPages h, mem_vramPages, mem_metaPages h,
    mem_modulePages h]
  rcases hb with hb | hb | hb | hb <;> omega

/-- **No page is requested twice**, unless the metadata or the module starts at the page boundary
where the kernel ends, or the module meets the video memory. -/
theorem bootPages_nodup_iff (h : env.Apart) :
    (bootPages env).Nodup ↔ ¬ env.AbutsKernel ∧ ¬ env.ModuleInVram := by
  have hkernel := h.kernel
  have hstart := h.start
  have hmod : (modulePages env).Nodup := by
    unfold modulePages
    split_ifs
    · exact List.nodup_nil
    · exact nodup_pagesIn _ _
  simp only [bootPages, List.nodup_append', kernelPages, vramPages, metaPages, nodup_pagesIn, hmod,
    true_and]
  rw [← kernelPages, ← vramPages, ← metaPages]
  simp only [List.disjoint_left, List.mem_append, mem_kernelPages h, mem_vramPages,
    mem_metaPages h, mem_modulePages h]
  have hmeta := h.meta_align
  have hmk := h.meta_kernel
  have hmm := h.meta_module
  have halign := h.module_align
  have hapart := h.module_kernel
  constructor
  · rintro ⟨⟨-, hvram⟩, hall⟩
    refine ⟨?_, ?_⟩
    · rintro ⟨hend, ⟨hpos, heq⟩ | ⟨hpos, heq⟩⟩
      · exact hall (a := env.kernelEnd) ⟨hend, by omega, le_rfl⟩ (by omega)
      · exact hall (a := env.kernelEnd) ⟨hend, by omega, le_rfl⟩ (by omega)
    · rintro ⟨hpos, hlo, hhi⟩
      have := halign hpos
      exact hvram (a := max env.moduleAddr 0xa0000) (by omega) (.inr (by omega))
  · unfold BootRanges.AbutsKernel BootRanges.ModuleInVram
    rintro ⟨habuts, hvram⟩
    refine ⟨⟨?_, ?_⟩, ?_⟩
    · rintro a ⟨-, hlo, hhi⟩ ⟨-, hlo', hhi'⟩
      rcases hmm (by omega) (by omega) with hleft | hright
      · omega
      · omega
    · rintro a ⟨-, hlo, hhi⟩ (⟨-, hlo', hhi'⟩ | ⟨-, hlo', hhi'⟩)
      · have hbehind := hmk (by omega)
        omega
      · exact hvram ⟨by omega, by omega, by omega⟩
    · -- a page that the kernel shares with an area behind it is the one where the kernel ends
      rintro a ⟨hpage, hlo, hhi⟩ (⟨-, -, hbelow⟩ | ⟨-, hlo', hhi'⟩ | ⟨-, hlo', hhi'⟩)
      · omega
      · have hbehind := hmk (by omega)
        exact habuts ⟨by omega, .inl ⟨by omega, by omega⟩⟩
      · have halign := halign (by omega)
        rcases hapart (by omega) with hbefore | hbehind
        · omega
        · exact habuts ⟨by omega, .inr ⟨by omega, by omega⟩⟩

end Pages

/-! ## The setup -/

section Boot

variable {kernel : KernelImage} {mbi : MultibootInfo} {init : PhysMemMapInit} {st : PfaInitState}

/-- The module is loaded on a page boundary, as the `ALIGN` flag of the header asks. -/
def MultibootInfo.ModuleAligned (mbi : MultibootInfo) : Prop :=
  mbi.hasModule = true → mbi.mod.modStart % 4096 = 0

/-- What the module is after `phys_mem_map_init`. -/
theorem module_of_init (hmap : BootMap kernel mbi init) (hpos : 0 < init.moduleLen) :
    mbi.hasModule = true ∧ init.moduleAddr = mbi.mod.modStart ∧
      init.moduleAddr + init.moduleLen = mbi.mod.modEnd := by
  have heq := hmap.module_eq
  unfold MultibootInfo.module at heq
  split_ifs at heq with hm
  · exact ⟨hm, (Prod.mk.inj heq).1, (Prod.mk.inj heq).2⟩
  · have := (Prod.mk.inj heq).2
    omega

/-- **How the areas lie after `phys_mem_map_init` and `pfa_init`.** -/
theorem apart_bootRanges (hboot : BootLayout kernel mbi) (hstart : kernel.kernelStart = 0x100000)
    (halign : mbi.ModuleAligned)
    (hdis : Disjoint (rangeBytes mbi.module) (rangeBytes (kernel.kernelStart, kernel.kernelEnd)))
    (hpmm : physMemMapInit kernel mbi = some init)
    (hpfa : pfaInit init.physMemMap = .ok (some st)) : (bootRanges kernel init st).Apart := by
  obtain ⟨hmap, -⟩ := bootMap_of_init hboot hpmm
  obtain ⟨hmetaAlign, hmetaHigh, hmeta⟩ := pfaInit_metadata hmap.inv hpfa
  have hkernel := hboot.kernel_nonempty
  have hmodule : 0 < init.moduleLen → init.moduleAddr + init.moduleLen ≤ 0xffc00000 ∧
      Disjoint (Set.Ico init.moduleAddr (init.moduleAddr + init.moduleLen))
        (Set.Ico kernel.kernelStart kernel.kernelEnd) := by
    intro hpos
    obtain ⟨hm, hlo, hhi⟩ := module_of_init hmap hpos
    have hbound := hboot.areas_bounded mbi.module (by simp [MultibootInfo.areas])
    rw [MultibootInfo.module, if_pos hm] at hbound hdis
    rw [hhi, hlo]
    exact ⟨hbound, hdis⟩
  have hmetaRange : 0 < st.pfaMetaReservedPages →
      Disjoint (Set.Ico st.pfaMeta (st.pfaMeta + 4096 * st.pfaMetaReservedPages))
        (Set.Ico kernel.kernelStart kernel.kernelEnd) ∧
      Disjoint (Set.Ico st.pfaMeta (st.pfaMeta + 4096 * st.pfaMetaReservedPages))
        (Set.Ico init.moduleAddr (init.moduleAddr + init.moduleLen)) := by
    intro hpos
    obtain ⟨-, hk, -, hm⟩ := (hmap.available _ _ (by omega)).mp hmeta
    rw [← hmap.module_eq] at hm
    exact ⟨hk, hm⟩
  constructor
  case below =>
    refine ⟨?_, ?_, ?_⟩
    · have := hmap.place
      simp only [bootRanges]
      omega
    · obtain ⟨e, he, -, hlo, hhi⟩ := hmeta
      have := hmap.inv.bounded e he
      simp only [bootRanges]
      omega
    · by_cases hpos : 0 < init.moduleLen
      · exact (hmodule hpos).1
      · have heq := hmap.module_eq
        unfold MultibootInfo.module at heq
        split_ifs at heq with hm
        · have hbound := hboot.areas_bounded mbi.module (by simp [MultibootInfo.areas])
          rw [MultibootInfo.module, if_pos hm, ← heq] at hbound
          exact hbound
        · have := (Prod.mk.inj heq).2
          simp only [bootRanges]
          omega
  case start => exact hstart
  case kernel => exact hkernel
  case meta_align => exact hmetaAlign
  case meta_kernel =>
    intro hpos
    have hdis := (hmetaRange hpos).1
    simp only [bootRanges] at hpos ⊢
    rw [disjoint_ranges_iff (by omega) hkernel] at hdis
    omega
  case meta_module =>
    intro hpos hlen
    have hdis := (hmetaRange hpos).2
    simp only [bootRanges] at hpos hlen ⊢
    rw [disjoint_ranges_iff (by omega) (by omega)] at hdis
    omega
  case module_align =>
    intro hpos
    obtain ⟨hm, hlo, -⟩ := module_of_init hmap hpos
    simp only [bootRanges, hlo]
    exact halign hm
  case module_kernel =>
    intro hpos
    have hdis := (hmodule hpos).2
    simp only [bootRanges] at hpos ⊢
    rw [disjoint_ranges_iff (by omega) hkernel] at hdis
    omega

/-- No page is requested twice, the setup succeeds, and afterwards every byte of the four areas
is mapped to itself. -/
def BootMapped (env : BootRanges) (s : Machine) : Prop :=
  (bootPages env).Nodup ∧ ∃ s', pagingSetup env s = .ok s' ∧
    ∀ b, env.InArea b → translate s'.mem s'.cr3 b = some b

/-- A byte on a bootstrap page is mapped to itself. -/
theorem translate_bootMap {env : BootRanges} {mem : ℕ → ℕ} {dir b : ℕ} (h : env.Apart)
    (hrep : Represents mem dir (bootMap env)) (hb : env.InArea b) :
    translate mem dir b = some b := by
  have hpage := page_mem_bootPages h hb
  have hlt := mem_bootPages_lt h.below _ hpage
  have hwalk : walk mem dir b = walk mem dir (4096 * (b / 4096)) := by
    have hd : pdIndex b = pdIndex (4096 * (b / 4096)) := by
      rw [pdIndex_eq, pdIndex_eq]
      omega
    have ht : ptIndex b = ptIndex (4096 * (b / 4096)) := by
      rw [ptIndex_eq, ptIndex_eq]
      omega
    rw [walk, walk, hd, ht]
  rw [translate_eq_walk, hwalk, hrep _ hlt (by omega), bootMap, if_pos hpage, Option.map_some,
    pageOffset_eq]
  congr 1
  omega

/-- **When the bootstrap mapping succeeds.** With enough frames for the directory and the tables,
`paging_setup` maps the kernel, the video memory, the metadata and the module to themselves,
without asking for a page twice, exactly when neither the metadata nor the module starts at a
page boundary where the kernel ends, and the module does not meet the video memory. -/
theorem bootstrap_mapped_iff (hboot : BootLayout kernel mbi)
    (hstart : kernel.kernelStart = 0x100000) (halign : mbi.ModuleAligned)
    (hdis : Disjoint (rangeBytes mbi.module) (rangeBytes (kernel.kernelStart, kernel.kernelEnd)))
    (hpmm : physMemMapInit kernel mbi = some init)
    (hpfa : pfaInit init.physMemMap = .ok (some st)) {s : Machine} (hs : s.pfa = st.pfa)
    (hflag : s.pagingEnabled = false) (hpg : s.cr0Pg = false)
    (hframes : ((bootPages (bootRanges kernel init st)).map pdIndex).toFinset.card <
      freeFrames st.pfa) :
    BootMapped (bootRanges kernel init st) s ↔
      ¬ (bootRanges kernel init st).AbutsKernel ∧ ¬ (bootRanges kernel init st).ModuleInVram := by
  have hapart := apart_bootRanges hboot hstart halign hdis hpmm hpfa
  rw [← bootPages_nodup_iff hapart]
  refine ⟨fun h => h.1, fun hnodup => ⟨hnodup, ?_⟩⟩
  obtain ⟨hmap, -⟩ := bootMap_of_init hboot hpmm
  obtain ⟨hready, -⟩ := pfaInit_start hmap.inv hpfa
  have hinv : PfaInv s.pfa [] := hs ▸ pfaInv_of_free hready.geometry hready.free
  have hnull : NoNullFrame s.pfa := by
    intro r hr hpos
    have := hready.high r (hs ▸ hr) hpos
    omega
  obtain ⟨s', hsetup⟩ := pagingSetup_total hapart.below hinv hnull hflag hpg
    (bootPages_align hapart) (by simp [bootRanges, hstart]) hnodup (hs ▸ hframes)
  obtain ⟨-, -, -, -, hrep⟩ := pagingSetup_spec hapart.below hinv hflag hpg hsetup
  exact ⟨s', hsetup, fun b hb => translate_bootMap hapart hrep hb⟩

end Boot

/-- A machine before paging, with the page frames that `pfa_init` left. -/
def bootMachine (st : PfaInitState) : Machine where
  mem := fun _ => 0
  pfa := st.pfa
  pageDirectory := 0
  pagingEnabled := false
  cr3 := 0
  cr0Pg := false

/-- A kernel that ends in the middle of a page. -/
def oddKernel : KernelImage := ⟨0x100000, 0x104800⟩

/-- What `phys_mem_map_init` and `pfa_init` make of it. -/
def oddInit : PhysMemMapInit where
  physMemMap :=
    [⟨0, 0x9f000, .available⟩, ⟨0x100000, 0x4800, .reserved⟩, ⟨0x104800, 0x800, .available⟩,
      ⟨0x105000, 220, .reserved⟩, ⟨0x1050dc, 0xaf24, .available⟩, ⟨0x110000, 0x800, .reserved⟩,
      ⟨0x110800, 0xf800, .available⟩]
  pmmAddr := 0x105000
  pmmSize := 220
  moduleAddr := 0x110000
  moduleLen := 0x800

/-- The allocator of the kernel that ends in the middle of a page. -/
def oddPfa : PfaInitState where
  pfaMeta := 0x106000
  pfaMetaReservedPages := 1
  pfa := [⟨0x107000, List.replicate 9 .free⟩, ⟨0x111000, List.replicate 15 .free⟩]
  physMemMap :=
    [⟨0, 0x9f000, .available⟩, ⟨0x100000, 0x4800, .reserved⟩, ⟨0x104800, 0x800, .available⟩,
      ⟨0x105000, 220, .reserved⟩, ⟨0x1050dc, 0xaf24, .reserved⟩, ⟨0x110000, 0x800, .reserved⟩,
      ⟨0x110800, 0xf800, .reserved⟩]

theorem module_apart_big (kernel : KernelImage) (h : kernel.kernelEnd ≤ 0x110000) :
    Disjoint (rangeBytes bigMbi.module) (rangeBytes (kernel.kernelStart, kernel.kernelEnd)) := by
  rw [show bigMbi.module = (0x110000, 0x110800) by decide, rangeBytes, rangeBytes,
    Set.Ico_disjoint_Ico]
  omega

/-- The setup succeeds with this kernel, and the page of the text screen is mapped to itself. -/
theorem bootstrap_mapped_odd :
    ∃ s', pagingSetup (bootRanges oddKernel oddInit oddPfa) (bootMachine oddPfa) = .ok s' ∧
      translate s'.mem s'.cr3 0xb8000 = some 0xb8000 := by
  have hboot : BootLayout oddKernel bigMbi :=
    { bootInfo_big.toBootLayout with
      kernel_nonempty := by decide
      areas_bounded := by decide }
  have hpmm : physMemMapInit oddKernel bigMbi = some oddInit := by decide +kernel
  have hpfa : pfaInit oddInit.physMemMap = .ok (some oddPfa) := by decide +kernel
  obtain ⟨-, s', hsetup, hmap⟩ := (bootstrap_mapped_iff (s := bootMachine oddPfa) hboot rfl
    (fun _ => rfl) (module_apart_big _ (by decide)) hpmm hpfa rfl rfl rfl (by decide +kernel)).mpr
      ⟨by simp [BootRanges.AbutsKernel, bootRanges, oddKernel],
        by simp [BootRanges.ModuleInVram, bootRanges, oddInit]⟩
  exact ⟨s', hsetup, hmap _ (.inr (.inl ⟨by omega, by omega⟩))⟩

/-- The kernel of five whole pages, whose metadata starts where it ends: with frames to spare,
the page behind the kernel is requested twice, and paging is not set up. -/
theorem bootstrap_not_mapped_big :
    BootLayout bigKernel bigMbi ∧ bigKernel.kernelStart = 0x100000 ∧ bigMbi.ModuleAligned ∧
      Disjoint (rangeBytes bigMbi.module)
        (rangeBytes (bigKernel.kernelStart, bigKernel.kernelEnd)) ∧
      physMemMapInit bigKernel bigMbi = some bigInit ∧
      pfaInit bigInit.physMemMap = .ok (some bigPfa) ∧
      ((bootPages (bootRanges bigKernel bigInit bigPfa)).map pdIndex).toFinset.card <
        freeFrames bigPfa.pfa ∧
      ¬ (bootPages (bootRanges bigKernel bigInit bigPfa)).Nodup ∧
      ∀ s', pagingSetup (bootRanges bigKernel bigInit bigPfa) (bootMachine bigPfa) ≠ .ok s' := by
  have hdup : ¬ (bootPages (bootRanges bigKernel bigInit bigPfa)).Nodup := by decide +kernel
  have hboot := bootInfo_big.toBootLayout
  have hdis := module_apart_big bigKernel (by decide)
  refine ⟨hboot, rfl, fun _ => rfl, hdis, physMemMapInit_big, pfaInit_big, by decide +kernel, hdup,
    fun s' hsetup => hdup ?_⟩
  have hapart := apart_bootRanges hboot rfl (fun _ => rfl) hdis physMemMapInit_big pfaInit_big
  obtain ⟨hmap, -⟩ := bootMap_of_init hboot physMemMapInit_big
  obtain ⟨hready, -⟩ := pfaInit_start hmap.inv pfaInit_big
  exact (pagingSetup_spec hapart.below (s := bootMachine bigPfa)
    (pfaInv_of_free hready.geometry hready.free) rfl rfl hsetup).1

end Ahos
