import Ahos.Mem.Kmalloc.Outside
import Ahos.Mem.Paging.Bootstrap
import Ahos.Mem.Paging.Fault
import Ahos.Mem.Paging.Shadow

/-!
# Memory from boot on

`mem_init` of `init.c`: the physical memory map, the page frame allocator and paging, in
this order. After it the kernel runs on `kmalloc` and `kfree`. The pages that its callers
get are pages that nothing else claims, they are mapped to themselves, and what the boot
has mapped stays as it is. All of it rests on one condition: that the page frame behind a
kernel which ends on a page boundary, and which `bootstrap_mapping` maps by mistake, is
not free.
-/

namespace Ahos

/-- What `mem_init` leaves behind. -/
structure MemInit where
  init : PhysMemMapInit
  pfaInit : PfaInitState
  machine : Machine

/-- `mem_init`. -/
def memInit (kernel : KernelImage) (mbi : MultibootInfo) (s : Machine) : Outcome MemInit :=
  if mbi.flags &&& multibootInfoMemMap ≠ 0 then
    match physMemMapInit kernel mbi with
    | none => panic "failed to initialize memory map"
    | some init => do
      match ← pfaInit init.physMemMap with
      | none => panic "failed to init the page frame allocator"
      | some st =>
        let machine ← pagingSetup (bootRanges kernel init st) { s with pfa := st.pfa }
        return ⟨init, st, machine⟩
  else
    panic "no memory map from multiboot info, cannot initialize memory"

/-- What `mem_init` has done when it returns. -/
theorem memInit_ok {kernel : KernelImage} {mbi : MultibootInfo} {s : Machine} {b : MemInit}
    (h : memInit kernel mbi s = .ok b) :
    physMemMapInit kernel mbi = some b.init ∧
      pfaInit b.init.physMemMap = .ok (some b.pfaInit) ∧
      pagingSetup (bootRanges kernel b.init b.pfaInit) { s with pfa := b.pfaInit.pfa } =
        .ok b.machine := by
  unfold memInit at h
  split_ifs at h with hflag
  · cases hpmm : physMemMapInit kernel mbi with
    | none =>
      rw [hpmm] at h
      cases h
    | some init =>
      rw [hpmm] at h
      obtain ⟨st?, hpfa, h⟩ := Run.bind_eq_ok.mp h
      cases st? with
      | none => cases h
      | some st =>
        obtain ⟨machine, hsetup, h⟩ := Run.bind_eq_ok.mp h
        obtain rfl := Except.ok.inj h
        exact ⟨rfl, hpfa, hsetup⟩
  · cases h

/-- What `mem_init` relies on: the structures of the boot loader, entries of its map that do not
straddle 1 MB, the address of the linker script, and a module that is loaded on a page boundary. -/
structure BootReady (kernel : KernelImage) (mbi : MultibootInfo) : Prop
    extends BootInfo kernel mbi where
  low : ∀ e ∈ mbi.mmap, e.addr + e.len ≤ 0x100000 ∨ 0x100000 ≤ e.addr
  start : kernel.kernelStart = 0x100000
  align : mbi.ModuleAligned

/-- The machine runs without paging. -/
structure Machine.Unpaged (s : Machine) : Prop where
  flag : s.pagingEnabled = false
  pg : s.cr0Pg = false

/-- The module does not meet the kernel. -/
theorem BootReady.module_kernel {kernel : KernelImage} {mbi : MultibootInfo}
    (hready : BootReady kernel mbi) :
    Disjoint (rangeBytes mbi.module) (rangeBytes (kernel.kernelStart, kernel.kernelEnd)) := by
  have hpw := hready.areas_disjoint
  simp only [MultibootInfo.areas, List.pairwise_cons, List.mem_cons, List.not_mem_nil, or_false,
    forall_eq] at hpw
  exact hpw.2.2.2.1

/-- The boot of a kernel that ends in the middle of a page. -/
theorem bootReady_odd : BootReady oddKernel bigMbi where
  toBootInfo :=
    { bootInfo_big with
      kernel_nonempty := by decide
      areas_bounded := by decide
      areas_disjoint := by
        simp [MultibootInfo.areas, MultibootInfo.modHeader, MultibootInfo.module, rangeBytes,
          MultibootInfo.hasModule, MultibootInfo.hasMods, multibootInfoMods, bigMbi, oddKernel,
          Set.Ico_disjoint_Ico] }
  low := by decide
  start := rfl
  align := fun _ => rfl

theorem memInit_odd :
    ∃ t, memInit oddKernel bigMbi (bootMachine oddPfa) = .ok ⟨oddInit, oddPfa, t⟩ := by
  have hpmm : physMemMapInit oddKernel bigMbi = some oddInit := by decide +kernel
  have hpfa : pfaInit oddInit.physMemMap = .ok (some oddPfa) := by decide +kernel
  have hapart := apart_bootRanges bootReady_odd.toBootLayout rfl (fun _ => rfl)
    bootReady_odd.module_kernel hpmm hpfa
  obtain ⟨hmap, -⟩ := bootMap_of_init bootReady_odd.toBootLayout hpmm
  obtain ⟨hstart, -⟩ := pfaInit_start hmap.inv hpfa
  have hnull : NoNullFrame oddPfa.pfa := by simp [NoNullFrame, oddPfa]
  have hframes : ((bootPages (bootRanges oddKernel oddInit oddPfa)).map pdIndex).toFinset.card <
      freeFrames oddPfa.pfa := by decide +kernel
  obtain ⟨t, ht⟩ := pagingSetup_total hapart.below (s := bootMachine oddPfa)
    (pfaInv_of_free hstart.geometry hstart.free) hnull rfl rfl (bootPages_align hapart) rfl
    (by decide +kernel) hframes
  refine ⟨t, ?_⟩
  rw [memInit, if_pos (by decide), hpmm]
  have ht' : pagingSetup (bootRanges oddKernel oddInit oddPfa)
      { bootMachine oddPfa with pfa := oddPfa.pfa } = .ok t := ht
  simp only [hpfa, Run.ok_bind, ht']
  rfl

/-! ## The frames after the boot -/

section Boot

variable {kernel : KernelImage} {mbi : MultibootInfo} {s : Machine} {b : MemInit}

/-- The four areas that `mem_init` maps to themselves. -/
def MemInit.ranges (b : MemInit) (kernel : KernelImage) : BootRanges :=
  bootRanges kernel b.init b.pfaInit

/-- A frame of the allocator is a page that nothing else claims. -/
theorem unclaimed_of_frame {init : PhysMemMapInit} {st : PfaInitState}
    (hready : BootReady kernel mbi) (hpmm : physMemMapInit kernel mbi = some init)
    (hpfa : pfaInit init.physMemMap = .ok (some st)) {f : ℕ} (hf : ∃ c, FrameIs st.pfa f c) :
    f < 0x100000000 ∧ UnclaimedPage kernel mbi init st f := by
  obtain ⟨hmap, -⟩ := bootMap_of_init hready.toBootLayout hpmm
  have hcov : Covered st.pfa f := by
    obtain ⟨c, r, hr, k, hk, rfl⟩ := hf
    exact ⟨r, hr, k, (List.getElem?_eq_some_iff.mp hk).1, rfl⟩
  obtain ⟨hcovered, -⟩ := pfaInit_covered hmap.inv (fun e he => by
    obtain ⟨e', he', hlo, hhi⟩ := hmap.part e he
    have := hready.low e' he'
    omega) hpfa
  obtain ⟨hmod, hhigh, havail, hmeta⟩ := (hcovered f).mp hcov
  obtain ⟨⟨e, he, ht, -, hlo, hhi⟩, hkernel, hpmm, hmodule⟩ :=
    (hmap.available f (f + 4096) (by omega)).mp havail
  refine ⟨?_, hmod, hhigh, ⟨e, he, ht, Set.Ico_subset_Ico hlo hhi⟩, hkernel, hpmm, hmodule, hmeta⟩
  obtain ⟨e', he', -, hlo', hhi'⟩ := havail
  have := hmap.inv.bounded e' he'
  omega

/-- The state in which `mem_init` leaves the machine. -/
structure Booted (kernel : KernelImage) (mbi : MultibootInfo) (b : MemInit) : Prop where
  apart : (b.ranges kernel).Apart
  held : HeldFrames b.machine.cr3 b.machine [] []
  boot : Represents b.machine.mem b.machine.cr3 (bootMap (b.ranges kernel))
  module_eq : (b.init.moduleAddr, b.init.moduleAddr + b.init.moduleLen) = mbi.module
  frame : ∀ f, (∃ c, FrameIs b.machine.pfa f c) →
    f < 0x100000000 ∧ UnclaimedPage kernel mbi b.init b.pfaInit f

theorem memInit_booted (hready : BootReady kernel mbi) (hs : s.Unpaged)
    (h : memInit kernel mbi s = .ok b) : Booted kernel mbi b := by
  obtain ⟨hpmm, hpfa, hsetup⟩ := memInit_ok h
  obtain ⟨hmap, -⟩ := bootMap_of_init hready.toBootLayout hpmm
  obtain ⟨hstart, hbelow⟩ := pfaInit_start hmap.inv hpfa
  have hapart : (b.ranges kernel).Apart :=
    apart_bootRanges hready.toBootLayout hready.start hready.align hready.module_kernel hpmm hpfa
  set t : Machine := { s with pfa := b.pfaInit.pfa }
  have hstart' : PfaStart t.pfa := hstart
  obtain ⟨hheld, hboot⟩ := heldFrames_start hapart.below hstart' hbelow hs.flag hs.pg hsetup
  have hinv : PfaInv t.pfa [] := pfaInv_of_free hstart.geometry hstart.free
  obtain ⟨-, -, hshape, -, -⟩ := pagingSetup_spec hapart.below hinv hs.flag hs.pg hsetup
  refine ⟨hapart, hheld, hboot, hmap.module_eq, fun f hf => ?_⟩
  rw [exists_frameIs_iff, hshape, ← exists_frameIs_iff] at hf
  exact unclaimed_of_frame hready hpmm hpfa hf

/-- No byte of the four areas lies on a frame of the allocator. -/
theorem Booted.area_not_frame (h : Booted kernel mbi b) {x : ℕ}
    (hx : (b.ranges kernel).InArea x) : ¬ ∃ c, FrameIs b.machine.pfa (4096 * (x / 4096)) c := by
  intro hf
  obtain ⟨-, -, hhigh, -, hkernel, -, hmodule, hmeta⟩ := h.frame _ hf
  have hpage : x ∈ Set.Ico (4096 * (x / 4096)) (4096 * (x / 4096) + 4096) :=
    ⟨by omega, by omega⟩
  rcases hx with hx | hx | hx | hx
  · exact Set.disjoint_left.mp hkernel hpage hx
  · omega
  · exact Set.disjoint_left.mp hmeta hpage hx
  · rw [← h.module_eq] at hmodule
    exact Set.disjoint_left.mp hmodule hpage hx

/-- A frame of the allocator that is a bootstrap page is the page where the kernel ends. -/
theorem Booted.bootPage_frame (h : Booted kernel mbi b) {f : ℕ}
    (hf : ∃ c, FrameIs b.machine.pfa f c) (hmem : f ∈ bootPages (b.ranges kernel)) :
    f = kernel.kernelEnd ∧ kernel.kernelEnd % 4096 = 0 := by
  obtain ⟨-, hmod, -⟩ := h.frame f hf
  have hpage : 4096 * (f / 4096) = f := by omega
  have hout : ¬ (b.ranges kernel).InArea f := fun hx => h.area_not_frame hx (hpage.symm ▸ hf)
  have hstart := h.apart.start
  have hend : (b.ranges kernel).kernelEnd = kernel.kernelEnd := rfl
  simp only [bootPages, List.mem_append, mem_kernelPages h.apart, mem_vramPages,
    mem_metaPages h.apart, mem_modulePages h.apart] at hmem
  simp only [BootRanges.InArea] at hout
  omega

/-- **Which free frames are mapped after the boot.** No page frame that is free is mapped, unless
the kernel ends on a page boundary and the page frame behind it is free. A free frame that is
mapped is this one. -/
theorem mem_init_maps_free_iff (hready : BootReady kernel mbi) (hs : s.Unpaged)
    (h : memInit kernel mbi s = .ok b) :
    ((∀ f, FrameIs b.machine.pfa f .free → translate b.machine.mem b.machine.cr3 f = none) ↔
      ¬ (kernel.kernelEnd % 4096 = 0 ∧ FrameIs b.machine.pfa kernel.kernelEnd .free)) ∧
    ∀ f, FrameIs b.machine.pfa f .free → translate b.machine.mem b.machine.cr3 f ≠ none →
      f = kernel.kernelEnd ∧ kernel.kernelEnd % 4096 = 0 := by
  have hb := memInit_booted hready hs h
  have hwalk : ∀ f, FrameIs b.machine.pfa f .free →
      (translate b.machine.mem b.machine.cr3 f = none ↔ f ∉ bootPages (b.ranges kernel)) := by
    intro f hf
    obtain ⟨hlt, hmod⟩ := frame_below hb.held.paging.inv.owned hb.held.below hf
    rw [translate_eq_walk, hb.boot f hlt hmod, bootMap]
    split_ifs with hmem <;> simp [hmem]
  have honly : ∀ f, FrameIs b.machine.pfa f .free →
      translate b.machine.mem b.machine.cr3 f ≠ none →
      f = kernel.kernelEnd ∧ kernel.kernelEnd % 4096 = 0 := by
    intro f hf hne
    refine hb.bootPage_frame ⟨_, hf⟩ ?_
    by_contra hmem
    exact hne ((hwalk f hf).mpr hmem)
  refine ⟨⟨?_, fun hnot f hf => ?_⟩, honly⟩
  · rintro hnone ⟨hend, hf⟩
    have hkernel : (b.ranges kernel).kernelStart < kernel.kernelEnd := hb.apart.kernel
    have hstart := hb.apart.start
    refine (hwalk _ hf).mp (hnone _ hf) ?_
    rw [bootPages, List.mem_append, mem_kernelPages hb.apart]
    exact .inl ⟨hend, by omega, le_rfl⟩
  · by_contra hne
    obtain ⟨rfl, hend⟩ := honly f hf hne
    exact hnot ⟨hend, hf⟩

/-- No free frame is mapped after the boot of a kernel that ends in the middle of a page. -/
theorem mem_init_maps_free_odd :
    ∃ b, memInit oddKernel bigMbi (bootMachine oddPfa) = .ok b ∧
      ∀ f, FrameIs b.machine.pfa f .free → translate b.machine.mem b.machine.cr3 f = none := by
  obtain ⟨t, hb⟩ := memInit_odd
  exact ⟨_, hb, (mem_init_maps_free_iff bootReady_odd ⟨rfl, rfl⟩ hb).1.mpr fun h =>
    absurd h.1 (by decide)⟩

end Boot

/-! ## Runs after the boot -/

/-- What holds of the memory at every point of a run after the boot. -/
structure HeapRun.Safe (r : HeapRun) (kernel : KernelImage) (mbi : MultibootInfo)
    (b : MemInit) : Prop where
  mode : r.heap.machine.cr0Pg = true ∧ r.heap.machine.cr3 = b.machine.cr3
  /-- The outstanding areas consist of unclaimed pages, which are mapped to themselves. -/
  areas : ∀ a ∈ r.areas, ∀ x, a.1 ≤ x → x < a.1 + a.2 →
    UnclaimedPage kernel mbi b.init b.pfaInit (4096 * (x / 4096)) ∧ x < 0x100000000 ∧
      translate r.heap.machine.mem b.machine.cr3 x = some x
  apart : r.areas.Pairwise AreasApart
  /-- The kernel, the video memory, the metadata and the module stay where they are. -/
  boot : ∀ x, (b.ranges kernel).InArea x →
    translate r.heap.machine.mem b.machine.cr3 x = some x
  /-- Whatever word is written inside an outstanding area, every address keeps its meaning. -/
  store : ∀ a ∈ r.areas, ∀ x, a.1 ≤ x → x + 4 ≤ a.1 + a.2 → ∀ word, ∃ t,
    r.heap.machine.store x word = .ok t ∧ t.mem x = word ∧ ∀ v < 4294967296,
      translate t.mem t.cr3 v = translate r.heap.machine.mem b.machine.cr3 v

section Run

variable {kernel : KernelImage} {mbi : MultibootInfo} {s : Machine} {b : MemInit}

/-- The frames of the allocator after the boot. -/
theorem Booted.kept (hb : Booted kernel mbi b)
    (hfree : ¬ (kernel.kernelEnd % 4096 = 0 ∧ FrameIs b.machine.pfa kernel.kernelEnd .free)) :
    KeptFrames b.machine.cr3 (shape b.machine.pfa) (walk b.machine.mem b.machine.cr3) b.machine
      [] [] := by
  refine ⟨.of_held hb.held (by simp [Within]) fun f hf => ?_, rfl, fun _ _ _ _ => rfl⟩
  obtain ⟨hlt, hmod⟩ := frame_below hb.held.paging.inv.owned hb.held.below hf
  rw [hb.boot f hlt hmod, bootMap, if_neg]
  intro hmem
  obtain ⟨rfl, hend⟩ := hb.bootPage_frame ⟨_, hf⟩ hmem
  exact hfree ⟨hend, hf⟩

theorem HeapInv.safe (hb : Booted kernel mbi b) {r : HeapRun}
    (h : HeapInv (KeptFrames b.machine.cr3 (shape b.machine.pfa) (walk b.machine.mem b.machine.cr3))
      r.heap r.areas []) : r.Safe kernel mbi b := by
  have hk := keptFrames_keeper b.machine.cr3 (shape b.machine.pfa)
    (walk b.machine.mem b.machine.cr3)
  have hframes := h.frames.frames
  have hmem : ∀ a ∈ r.areas, a ∈ r.heap.usedAreas ++ r.heap.bigAreas := fun a ha =>
    h.areas.mem_iff.mpr (List.mem_append_right _ ha)
  have hself : ∀ a ∈ r.areas, ∀ x, a.1 ≤ x → x < a.1 + a.2 →
      translate r.heap.machine.mem b.machine.cr3 x = some x := by
    intro a ha x hlo hhi
    have hw := h.byte_within hk (hmem a ha) hlo hhi
    rw [translate_page, hframes.mapped _ hw, Option.map_some]
    simp only [pageOffset_eq, Option.some.injEq]
    omega
  constructor
  case mode => exact hframes.mode
  case areas =>
    intro a ha x hlo hhi
    have hw := h.byte_within hk (hmem a ha) hlo hhi
    have hframe := hframes.paging.inv.owned.exists_frameIs
      (f := 4096 * (x / 4096)) (hw.imp fun c hc => ⟨List.mem_cons_of_mem _
        (List.mem_append_right _ hc.1), hc.2⟩)
    rw [exists_frameIs_iff, h.frames.shape_eq, ← exists_frameIs_iff] at hframe
    obtain ⟨hlt, hpage⟩ := hb.frame _ hframe
    exact ⟨hpage, by omega, hself a ha x hlo hhi⟩
  case apart =>
    have hpw := h.areas.pairwise (h.pairwise_areas hk) fun h => h.symm
    exact (List.pairwise_append.mp hpw).2.1
  case boot =>
    intro x hx
    have hpage := page_mem_bootPages hb.apart hx
    have hno := noFrame_shape.mpr (hb.area_not_frame hx)
    rw [translate_page, h.frames.outside _ (mem_bootPages_lt hb.apart.below _ hpage) (by omega) hno,
      ← translate_page]
    exact translate_bootMap hb.apart hb.boot hx
  case store =>
    intro a ha x hlo hhi word
    have hw := h.byte_within hk (hmem a ha) hlo (by omega)
    have hnot := hframes.paging.inv.not_tableWord hw (x := x) (by omega) (by omega)
    refine ⟨{ r.heap.machine with mem := Function.update r.heap.machine.mem x word }, ?_,
      Function.update_self .., fun v hv => ?_⟩
    · simp only [Machine.store, Machine.resolve, hframes.mode.1, if_true, hframes.mode.2,
        hself a ha x hlo (by omega), Run.ok_bind, Run.pure_eq]
    · have hagree : AgreeTables b.machine.cr3 r.heap.machine.mem
          (Function.update r.heap.machine.mem x word) := by
        intro y hy
        refine Function.update_of_ne ?_ _ _
        rintro rfl
        exact hnot hy
      simp only [hframes.mode.2]
      exact hagree.translate hframes.paging.inv.self hv

/-- **Memory safety from boot on.** When the page frame behind a kernel that ends on a page
boundary is not free after `mem_init`, then at every point of every run of `kmalloc` and `kfree`
the outstanding areas are pages that nothing else claims, apart from each other and mapped to
themselves, what the boot has mapped is as it was, and nothing that is written into the areas
changes what an address stands for. The only panic is the lack of a frame for a page table. -/
theorem boot_run_memory_safe (hready : BootReady kernel mbi) (hs : s.Unpaged)
    (h : memInit kernel mbi s = .ok b)
    (hfree : ¬ (kernel.kernelEnd % 4096 = 0 ∧ FrameIs b.machine.pfa kernel.kernelEnd .free))
    (ops : List HeapOp) (hops : ∀ op ∈ ops, op.Bounded) :
    (∀ r, Run.run HeapRun.step (.start b.machine) ops = .ok r → r.Safe kernel mbi b) ∧
    ∀ e, Run.run HeapRun.step (.start b.machine) ops = .error e →
      e = .panic "failed to create new page table" := by
  have hb := memInit_booted hready hs h
  obtain ⟨hok, herror⟩ := HeapRun.run_spec (s := .start b.machine) (keptFrames_keeper _ _ _) hops
    ⟨hb.kept hfree, by simp [HeapRun.start], by simp [HeapRun.start], List.Perm.nil⟩
  exact ⟨fun r hr => (hok r hr).safe hb, herror⟩

/-- A machine before the boot, with the kernel loaded: two words at its start are heads of lists,
which are empty. -/
def oddMachine : Machine :=
  { bootMachine oddPfa with
    mem := fun x => if x < 0x100008 then 0x100000 else 0x100008 }

/-- The block of this machine, with the chunk of a caller and that of the metadata. -/
def oddBlock : AhaBlock where
  addr := 0x109000
  eltSize := 16
  totElts := 239
  nbFrees := 237
  firstPtr := 0x109108
  chunkmap := .used :: .used :: List.replicate 237 .free

/-- A small and a big allocation after the boot, and the release of the big one. -/
theorem oddMachine_run :
    ∃ b r r', memInit oddKernel bigMbi oddMachine = .ok b ∧
      Run.run HeapRun.step (.start b.machine) [.kmalloc 10, .kmalloc 5000] = .ok r ∧
      r.outstanding = [(0x10a000, 5000), (0x109108, 10)] ∧
      r.heap.ahaBlockList = [oddBlock] ∧ r.heap.ahaBigList = [⟨0x109118, 8192, 0x10a000⟩] ∧
      Run.run HeapRun.step (.start b.machine) [.kmalloc 10, .kmalloc 5000, .kfree 0] = .ok r' ∧
      r'.outstanding = [(0x109108, 10)] ∧
      r'.heap.machine.load 0x10a000 = .error (.pageFault 0x10a000) ∧
      isPresent (pde r'.heap.machine.mem b.machine.cr3 (pdIndex 0x10a000)) = true := by
  obtain ⟨r, hrun, hr⟩ := Run.exists_of_map (f := fun r : MemInit × HeapRun × HeapRun => decide (
        r.2.1.outstanding = [(0x10a000, 5000), (0x109108, 10)] ∧
        r.2.1.heap.ahaBlockList = [oddBlock] ∧
        r.2.1.heap.ahaBigList = [⟨0x109118, 8192, 0x10a000⟩] ∧
        r.2.2.outstanding = [(0x109108, 10)] ∧
        r.2.2.heap.machine.load 0x10a000 = .error (.pageFault 0x10a000) ∧
        isPresent (pde r.2.2.heap.machine.mem r.1.machine.cr3 (pdIndex 0x10a000)) = true))
    (x := memInit oddKernel bigMbi oddMachine >>= fun b =>
      Run.run HeapRun.step (.start b.machine) [.kmalloc 10, .kmalloc 5000] >>= fun r =>
        r.step (.kfree 0) >>= fun r' => .ok (b, r, r')) (b := true) (by decide +kernel)
  obtain ⟨b, hb, hrun⟩ := Run.bind_eq_ok.mp hrun
  obtain ⟨r₁, hr₁, hrun⟩ := Run.bind_eq_ok.mp hrun
  obtain ⟨r₂, hr₂, hrun⟩ := Run.bind_eq_ok.mp hrun
  obtain rfl := Except.ok.inj hrun
  obtain ⟨hout, hblocks, hbigs, hout', hload, hpde⟩ := of_decide_eq_true hr
  refine ⟨b, r₁, r₂, hb, hr₁, hout, hblocks, hbigs, ?_, hout', hload, hpde⟩
  rw [show [HeapOp.kmalloc 10, .kmalloc 5000, .kfree 0] =
    [.kmalloc 10, .kmalloc 5000] ++ [.kfree 0] from rfl, Run.run_append, hr₁, Run.ok_bind,
    Run.run_cons, hr₂]
  rfl

/-- The kernel of this boot does not end on a page boundary. -/
theorem oddKernel_end (b : MemInit) :
    ¬ (oddKernel.kernelEnd % 4096 = 0 ∧ FrameIs b.machine.pfa oddKernel.kernelEnd .free) :=
  fun h => absurd h.1 (by decide)

/-- A small and a big allocation after this boot. -/
theorem boot_run_memory_safe_odd :
    ∃ b r, memInit oddKernel bigMbi oddMachine = .ok b ∧
      Run.run HeapRun.step (.start b.machine) [.kmalloc 10, .kmalloc 5000] = .ok r ∧
      r.outstanding = [(0x10a000, 5000), (0x109108, 10)] ∧ r.Safe oddKernel bigMbi b := by
  obtain ⟨b, r, -, hb, hrun, hout, -⟩ := oddMachine_run
  exact ⟨b, r, hb, hrun, hout, (boot_run_memory_safe bootReady_odd ⟨rfl, rfl⟩ hb (oddKernel_end b)
    [.kmalloc 10, .kmalloc 5000] (by simp [HeapOp.Bounded])).1 r hrun⟩

/-- **Page faults are diagnosed.** In every state of a run after the boot, the handler of an access
that faults reads the directory and the table without a second fault, and its panic says whether
the table or only the page is missing. -/
theorem boot_run_fault_diagnosed (hready : BootReady kernel mbi) (hs : s.Unpaged)
    (h : memInit kernel mbi s = .ok b)
    (hfree : ¬ (kernel.kernelEnd % 4096 = 0 ∧ FrameIs b.machine.pfa kernel.kernelEnd .free))
    (ops : List HeapOp) (hops : ∀ op ∈ ops, op.Bounded) {r : HeapRun}
    (hrun : Run.run HeapRun.step (.start b.machine) ops = .ok r) {v error : ℕ}
    (hv : v < 4294967296) (hfault : r.heap.machine.load v = .error (.pageFault v))
    (herror : error % 2 = 0) :
    pageFaultHandler r.heap.machine error v =
      panic (if isPresent (pde r.heap.machine.mem b.machine.cr3 (pdIndex v)) then pteNotPresent
        else pdeNotPresent) := by
  have hb := memInit_booted hready hs h
  obtain ⟨hok, -⟩ := HeapRun.run_spec (s := .start b.machine) (keptFrames_keeper _ _ _) hops
    ⟨hb.kept hfree, by simp [HeapRun.start], by simp [HeapRun.start], List.Perm.nil⟩
  have hframes := (hok r hrun).frames.frames
  have hreach := hframes.paging.reaches
  have hflag : r.heap.machine.pagingEnabled = true := by
    cases hreach with
    | window hflag => exact hflag
    | identity hflag hpg =>
      rw [hframes.mode.1] at hpg
      cases hpg
  have hnone : translate r.heap.machine.mem b.machine.cr3 v = none := by
    simp only [Machine.load, Machine.resolve, hframes.mode.1, if_true, hframes.mode.2] at hfault
    cases htr : translate r.heap.machine.mem b.machine.cr3 v with
    | none => rfl
    | some phys =>
      rw [htr] at hfault
      cases hfault
  rw [pageFaultHandler_eq hflag hreach hframes.paging.inv.self herror hv]
  have hend : walkEnd r.heap.machine.mem b.machine.cr3 v ≠ .page := fun hp =>
    walkEnd_eq_page_iff.mp hp hnone
  rw [walkEnd] at hend ⊢
  split_ifs at hend ⊢ with hpde
  · exact absurd rfl hend
  · rfl
  · rfl

/-- After the release of the big area its table is there and its pages are not: a late access of its
caller is diagnosed. -/
theorem boot_run_fault_diagnosed_odd :
    ∃ b r, memInit oddKernel bigMbi oddMachine = .ok b ∧
      Run.run HeapRun.step (.start b.machine) [.kmalloc 10, .kmalloc 5000, .kfree 0] = .ok r ∧
      r.heap.machine.load 0x10a000 = .error (.pageFault 0x10a000) ∧
      pageFaultHandler r.heap.machine 0 0x10a000 = panic pteNotPresent := by
  obtain ⟨b, -, r, hb, -, -, -, -, hrun, -, hfault, hpde⟩ := oddMachine_run
  have hdiagnosed := boot_run_fault_diagnosed bootReady_odd ⟨rfl, rfl⟩ hb (oddKernel_end b)
    [.kmalloc 10, .kmalloc 5000, .kfree 0] (by simp [HeapOp.Bounded]) hrun (by decide) hfault
    (rfl : 0 % 2 = 0)
  exact ⟨b, r, hb, hrun, hfault, hdiagnosed.trans (by rw [if_pos hpde])⟩

end Run

end Ahos
