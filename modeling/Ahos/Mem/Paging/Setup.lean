import Ahos.Mem.Paging.Kernel

/-!
# Setting up paging

`paging_setup` builds a directory that maps itself and then maps the kernel, the video
memory, the metadata of the page frame allocator and the module to themselves. The
directory it leaves satisfies the invariant of the tables, and its page map is the
identity on these pages. From there on, every sequence of calls refines the abstract
page map.
-/

namespace Ahos

/-! ## The bootstrap pages -/

/-- The areas that are mapped at boot end below the window. -/
structure BootRanges.Below (env : BootRanges) : Prop where
  kernel : env.kernelEnd < 0xffc00000
  metadata : env.pfaMeta + 4096 * env.pfaMetaReservedPages ≤ 0xffc00000
  module : env.moduleAddr + env.moduleLen ≤ 0xffc00000

/-- The pages of the kernel as the loop computes them: the end is exclusive, and one is added
before it is rounded up. -/
def kernelPages (env : BootRanges) : List ℕ :=
  pagesIn env.kernelStart (pageAlign (env.kernelEnd + 1))

/-- The pages of the video memory. -/
def vramPages : List ℕ := pagesIn 0xa0000 0x100000

/-- The pages of the metadata of the page frame allocator. -/
def metaPages (env : BootRanges) : List ℕ :=
  pagesIn env.pfaMeta (env.pfaMeta + 4096 * env.pfaMetaReservedPages)

/-- The pages of the module. -/
def modulePages (env : BootRanges) : List ℕ :=
  if env.moduleLen = 0 then []
  else pagesIn (pageMask env.moduleAddr) (env.moduleAddr + env.moduleLen)

/-- All pages that `bootstrap_mapping` maps, in order. -/
def bootPages (env : BootRanges) : List ℕ :=
  kernelPages env ++ (vramPages ++ (metaPages env ++ modulePages env))

section Bootstrap

variable {env : BootRanges} {s s' : Machine}

theorem mapAll_ok_iff {msg : String} (msg' : String) {pages : List ℕ} :
    mapAll msg s pages = .ok s' ↔ mapAll msg' s pages = .ok s' :=
  ⟨mapAll_ok_congr, mapAll_ok_congr⟩

theorem pfaMapMetadata_eq (h : env.Below) :
    pfaMapMetadata env s = mapAll "failed to map page 0x%p" s (metaPages env) :=
  foldlM_pages (f := fun s addr => mapIdentity s addr "failed to map page 0x%p")
    (by have := h.metadata; omega)

theorem physMemMapMapModule_eq (h : env.Below) :
    physMemMapMapModule env s = mapAll "failed to map page 0x%p" s (modulePages env) := by
  have hend := h.module
  unfold physMemMapMapModule modulePages
  split_ifs
  · rfl
  · rw [Word32.add_of_lt (by omega)]
    exact mapRange_eq (by omega) (by omega)

theorem mapBootstrapRange_eq {start stop : ℕ} (hstop : stop < 0xffc00000) :
    mapBootstrapRange s (start, stop) =
      if start % 4096 ≠ 0 then panic "starting range is not page-aligned"
      else mapAll "failed to map 0x%p" s (pagesIn start (pageAlign (stop + 1))) := by
  have halign := pageAlign_eq (x := stop + 1) (by omega)
  simp only [mapBootstrapRange, pageOffset_eq]
  split_ifs
  · rfl
  · rw [Word32.add_of_lt (by omega), halign]
    exact mapRange_eq (by omega) (by omega)

/-- **`bootstrap_mapping`** maps the bootstrap pages to themselves. -/
theorem bootstrapMapping_ok_iff (msg : String) (h : env.Below) :
    bootstrapMapping env s = .ok s' ↔
      env.kernelStart % 4096 = 0 ∧ mapAll msg s (bootPages env) = .ok s' := by
  have hvram : pagesIn 0xa0000 (pageAlign (0xfffff + 1)) = vramPages := by
    rw [vramPages, show pageAlign (0xfffff + 1) = 0x100000 by decide]
  simp only [bootstrapMapping, List.foldlM_cons, List.foldlM_nil, mapBootstrapRange_eq h.kernel,
    mapBootstrapRange_eq (show 0xfffff < 0xffc00000 by omega), hvram, pfaMapMetadata_eq h,
    physMemMapMapModule_eq h, show 0xa0000 % 4096 = 0 by decide, ne_eq, not_true_eq_false, if_false,
    bootPages, mapAll_append]
  by_cases hstart : env.kernelStart % 4096 = 0
  · simp only [hstart, not_true_eq_false, if_false, true_and, Run.bind_eq_ok,
      mapAll_ok_iff msg, kernelPages, Run.pure_eq,
      Except.ok.injEq]
    constructor
    · rintro ⟨c, ⟨a, ha, b, hb, rfl⟩, d, hd, h⟩
      exact ⟨a, ha, b, hb, d, hd, h⟩
    · rintro ⟨a, ha, b, hb, d, hd, h⟩
      exact ⟨b, ⟨a, ha, b, hb, rfl⟩, d, hd, h⟩
  · simp only [hstart, not_false_eq_true, if_true, false_and, iff_false]
    intro h
    cases h

end Bootstrap

/-! ## The new directory -/

/-- The memory after `paging_setup` has cleared the directory and linked it to itself. -/
def freshDirectoryMem (mem : ℕ → ℕ) (dir : ℕ) : ℕ → ℕ :=
  Function.update (fillTable mem dir rwKernelNocache) (dir + 4 * 1023)
    (dir ||| rwKernelNocache ||| maskPresent)

theorem store_identity {s : Machine} {addr word : ℕ} (h : s.cr0Pg = false) :
    s.store addr word = .ok { s with mem := Function.update s.mem addr word } := by
  simp [Machine.store, Machine.resolve, h]

/-- Clearing a table by its physical address. -/
theorem foldlM_store_identity {s : Machine} (h : s.cr0Pg = false) (addr word : ℕ) (is : List ℕ) :
    is.foldlM (fun s i => s.store (addr + 4 * i) word) s =
      .ok { s with mem := is.foldl (fun m i => Function.update m (addr + 4 * i) word) s.mem } := by
  induction is generalizing s with
  | nil => rfl
  | cons i is ih =>
    rw [List.foldlM_cons, store_identity h, Run.ok_bind]
    exact ih h

/-- `paging_setup`, once it has a frame for the directory. -/
theorem pagingSetup_eq {env : BootRanges} {s : Machine} {dir : ℕ} {pfa : PfaMeta}
    (hpg : s.cr0Pg = false) (halloc : pfaAlloc s.pfa 1 = .ok (dir, pfa)) (hne : dir ≠ 0)
    (halign : dir % 4096 = 0) :
    pagingSetup env s =
      bootstrapMapping env
        { s with pfa := pfa, mem := freshDirectoryMem s.mem dir, pageDirectory := dir } >>=
      fun t => .ok (t.window dir) := by
  have hclear := foldlM_store_identity (s := { s with pfa := pfa }) hpg dir
    rwKernelNocache (List.range 1024)
  have hself : Machine.store { s with pfa := pfa, mem := fillTable s.mem dir rwKernelNocache }
      (dir + 4 * 1023) (dir ||| rwKernelNocache ||| maskPresent) =
        .ok { s with pfa := pfa, mem := freshDirectoryMem s.mem dir } := store_identity hpg
  have hfill : (List.range 1024).foldl
      (fun m i => Function.update m (dir + 4 * i) rwKernelNocache) s.mem =
        fillTable s.mem dir rwKernelNocache := by
    rw [fillTable, fillWords]
  simp only [hfill] at hclear
  simp only [pagingSetup, halloc, Run.ok_bind, if_neg hne, hclear, hself, pageOffset_eq, halign,
    ne_eq, not_true_eq_false, if_false]
  rfl

/-- The new directory maps itself and nothing else. -/
theorem freshDirectory_spec {mem : ℕ → ℕ} {dir : ℕ} (halign : dir % 4096 = 0)
    (hlt : dir < 4294967296) :
    SelfMapped (freshDirectoryMem mem dir) dir ∧
      ∀ d < 1023, isPresent (pde (freshDirectoryMem mem dir) dir d) = false := by
  have hword : dir ||| rwKernelNocache ||| maskPresent = dir + 0x1b :=
    pte_eq halign (by decide)
  have hlast : pde (freshDirectoryMem mem dir) dir 1023 = dir + 0x1b := by
    rw [pde, freshDirectoryMem, Function.update_self, hword]
  refine ⟨⟨?_, ?_⟩, fun d hd => ?_⟩
  · rw [hlast, isPresent_iff]
    omega
  · rw [tableAddr, hlast]
    exact entry_addr halign hlt (by omega)
  · rw [pde, freshDirectoryMem, Function.update_of_ne (by omega), fillTable_in (by omega)]
    decide

/-- The state before `bootstrap_mapping`. -/
theorem kernelPaging_fresh {s : Machine} {dir : ℕ} {pfa : PfaMeta} {rest : List (ℕ × ℕ)}
    (hflag : s.pagingEnabled = false) (hpg : s.cr0Pg = false)
    (hpfa : PfaInv pfa ((dir, 1) :: rest)) :
    KernelPaging { s with pfa := pfa, mem := freshDirectoryMem s.mem dir, pageDirectory := dir }
        dir rest ∧
      ∀ v < 0xffc00000, walk (freshDirectoryMem s.mem dir) dir v = none := by
  obtain ⟨halign, hlt, -⟩ := hpfa.frame (List.mem_cons_self ..)
  obtain ⟨hself, habsent⟩ := freshDirectory_spec halign (by omega)
  have htables : tables (freshDirectoryMem s.mem dir) dir = [] := by
    rw [tables, List.filter_eq_nil_iff.mpr, List.map_nil]
    intro d hd
    rw [habsent d (List.mem_range.mp hd)]
    simp
  refine ⟨⟨.identity hflag hpg rfl, ⟨?_, hself⟩, fun d hd hp => ?_⟩, fun v hv => ?_⟩
  · rw [htables]
    exact hpfa
  · rw [habsent d hd] at hp
    cases hp
  · rw [walk, habsent _ (pdIndex_lt hv)]
    rfl

/-- The page map that `paging_setup` leaves: the identity on the bootstrap pages. -/
def bootMap (env : BootRanges) (v : ℕ) : Option (ℕ × ℕ) :=
  if v ∈ bootPages env then some (v, kernelFlags) else none

theorem mem_bootPages_lt {env : BootRanges} (h : env.Below) :
    ∀ a ∈ bootPages env, a < 0xffc00000 := by
  have halign := pageAlign_eq (x := env.kernelEnd + 1) (by have := h.kernel; omega)
  have hkernel := h.kernel
  have hmeta := h.metadata
  have hmod := h.module
  intro a ha
  simp only [bootPages, kernelPages, vramPages, metaPages, List.mem_append, mem_pagesIn] at ha
  rcases ha with ha | ha | ha | ha
  · omega
  · omega
  · omega
  · unfold modulePages at ha
    split_ifs at ha
    · cases ha
    · rw [mem_pagesIn] at ha
      omega

/-- The steps of a `paging_setup` that succeeds: it gets a frame for the directory, fills it, and
maps the bootstrap pages. -/
theorem pagingSetup_ok {env : BootRanges} {s s' : Machine} {rest : List (ℕ × ℕ)}
    (henv : env.Below) (hpfa : PfaInv s.pfa rest) (hpg : s.cr0Pg = false)
    (h : pagingSetup env s = .ok s') :
    ∃ dir pfa t, dir % 4096 = 0 ∧ dir < 4294967296 ∧ shape pfa = shape s.pfa ∧
      PfaInv pfa ((dir, 1) :: rest) ∧ s' = t.window dir ∧
      mapAll "" { s with pfa := pfa, mem := freshDirectoryMem s.mem dir, pageDirectory := dir }
        (bootPages env) = .ok t := by
  obtain ⟨dir, pfa, halloc, hshape, hinv⟩ := pfaAlloc_spec hpfa 1
  by_cases hne : dir = 0
  · simp only [pagingSetup, halloc, Run.ok_bind, if_pos hne] at h
    cases h
  · rw [if_neg (show dir ≠ badPage from hne)] at hinv
    obtain ⟨halign, hlt, -⟩ := hinv.frame (List.mem_cons_self ..)
    rw [pagingSetup_eq hpg halloc hne halign, Run.bind_eq_ok] at h
    obtain ⟨t, hboot, h⟩ := h
    obtain ⟨-, hmap⟩ := (bootstrapMapping_ok_iff "" henv).mp hboot
    exact ⟨dir, pfa, t, halign, by omega, hshape, hinv, (Except.ok.inj h).symm, hmap⟩

/-- **What `paging_setup` leaves behind** when it succeeds: no page was requested twice, and the
tables map the bootstrap pages to themselves. -/
theorem pagingSetup_spec {env : BootRanges} {s s' : Machine} {rest : List (ℕ × ℕ)}
    (henv : env.Below) (hpfa : PfaInv s.pfa rest) (hflag : s.pagingEnabled = false)
    (hpg : s.cr0Pg = false) (h : pagingSetup env s = .ok s') :
    (bootPages env).Nodup ∧ (∃ t : Machine, s' = t.window s'.cr3) ∧ shape s'.pfa = shape s.pfa ∧
      KernelPaging s' s'.cr3 rest ∧ Represents s'.mem s'.cr3 (bootMap env) := by
  obtain ⟨dir, pfa, t, -, -, hshape, hinv, rfl, hmap⟩ := pagingSetup_ok henv hpfa hpg h
  obtain ⟨hfresh, hnone⟩ := kernelPaging_fresh (s := s) hflag hpg hinv
  obtain ⟨ht, hshape', hnodup, -, hrep⟩ := mapAll_ok hfresh (mem_bootPages_lt henv) hmap
  refine ⟨hnodup, ⟨t, rfl⟩, hshape'.trans hshape,
    ⟨.window rfl rfl rfl rfl, ht.inv, ht.kernel⟩, fun v hv hva => ?_⟩
  have hv' := hrep v hv hva
  simp only [hnone v hv] at hv'
  exact hv'

/-- **`paging_setup` succeeds** when no bootstrap page is mapped twice and there are frames for
the directory and the tables. -/
theorem pagingSetup_total {env : BootRanges} {s : Machine} {rest : List (ℕ × ℕ)}
    (henv : env.Below) (hpfa : PfaInv s.pfa rest) (hnull : NoNullFrame s.pfa)
    (hflag : s.pagingEnabled = false) (hpg : s.cr0Pg = false)
    (halign : ∀ a ∈ bootPages env, a % 4096 = 0) (hstart : env.kernelStart % 4096 = 0)
    (hnodup : (bootPages env).Nodup)
    (hframes : ((bootPages env).map pdIndex).toFinset.card < freeFrames s.pfa) :
    ∃ s', pagingSetup env s = .ok s' := by
  obtain ⟨dir, pfa, halloc, hne, hfree⟩ := pfaAlloc_one hpfa hnull (by omega)
  obtain ⟨hshape, hinv⟩ := hpfa.of_alloc halloc
  rw [if_neg (show dir ≠ badPage from hne)] at hinv
  obtain ⟨hdir, hlt, -⟩ := hinv.frame (List.mem_cons_self ..)
  obtain ⟨hfresh, hnone⟩ := kernelPaging_fresh (s := s) hflag hpg hinv
  have hbelow := mem_bootPages_lt henv
  have hcard : (missing (freshDirectoryMem s.mem dir) dir (bootPages env)).card ≤
      freeFrames pfa := by
    have := Finset.card_filter_le ((bootPages env).map pdIndex).toFinset
      fun d => isPresent (pde (freshDirectoryMem s.mem dir) dir d) = false
    unfold missing
    omega
  obtain ⟨t, ht⟩ := mapAll_total hfresh
    (forall_of_shape (P := fun p n => 0 < n → 0 < p) hshape hnull) hbelow halign hnodup
    (fun a ha => hnone a (hbelow a ha)) hcard
  exact ⟨t.window dir, by
    rw [pagingSetup_eq hpg halloc hne hdir,
      (bootstrapMapping_ok_iff "" henv).mpr ⟨hstart, ht⟩, Run.ok_bind]⟩

/-! ## Refinement -/

/-- The entry that a successful call leaves for its page. -/
def PageOp.entry : PageOp → Option (ℕ × ℕ)
  | .map physAddr _ flags => some (physAddr, flags ||| maskPresent)
  | .unmap _ => none

/-- **The paging code refines the abstract page map.** After every run of calls on the directory
that `paging_setup` built, the tables represent the identity on the bootstrap pages with the
successful calls applied in order. A call that returns `false` leaves the machine as it was, a
call that returns `true` changes exactly its page, and `unmap_page` always returns, with `true`
exactly for an aligned page that is mapped. -/
theorem paging_refines_map {env : BootRanges} {s₀ s : Machine} {rest : List (ℕ × ℕ)}
    (henv : env.Below) (hpfa : PfaInv s₀.pfa rest) (hflag : s₀.pagingEnabled = false)
    (hpg : s₀.cr0Pg = false) (hsetup : pagingSetup env s₀ = .ok s) {ops : List PageOp}
    (hops : ∀ op ∈ ops, op.Below) {r : PageRun}
    (hrun : Run.run PageRun.step ⟨s, []⟩ ops = .ok r) :
    Represents r.machine.mem s.cr3 ((ops.zip r.rets).foldl applyCall (bootMap env)) ∧
    (∀ op : PageOp, op.Below → ∀ ret s', callPage r.machine op = .ok (ret, s') →
      (ret = false → s' = r.machine) ∧
      (ret = true → Represents s'.mem s.cr3
        (Function.update (walk r.machine.mem s.cr3) op.virt op.entry))) ∧
    ∀ virt < 0xffc00000, ∃ ret s', unmapPage r.machine virt = .ok (ret, s') ∧
      (ret = true ↔ virt % 4096 = 0 ∧ walk r.machine.mem s.cr3 virt ≠ none) := by
  obtain ⟨-, -, -, hs, hboot⟩ := pagingSetup_spec henv hpfa hflag hpg hsetup
  obtain ⟨hr, hinv, rets, hrets, hrep⟩ := run_refines (r := ⟨s, []⟩) hs.reaches hs.inv hboot hops hrun
  rw [List.nil_append] at hrets
  rw [hrets]
  refine ⟨hrep, fun op hop ret s' hcall => ?_, fun virt hv => ?_⟩
  · obtain ⟨-, -, hfalse, hcallRep⟩ := callPage_spec hr hinv hop hcall
    refine ⟨hfalse, ?_⟩
    rintro rfl
    cases op <;> exact hcallRep
  · exact ⟨_, _, unmapPage_eq hr hinv hv, (unmapPhys_spec hinv hv).1⟩

/-- A kernel of two pages at 1 MB, metadata of one page, and no module. -/
def smallBoot : BootRanges where
  kernelStart := 0x100000
  kernelEnd := 0x101800
  pfaMeta := 0x103000
  pfaMetaReservedPages := 1
  moduleAddr := 0
  moduleLen := 0

/-- A machine before paging, with four free frames at 2 MB. -/
def smallMachine : Machine where
  mem := fun _ => 0
  pfa := [⟨0x200000, [.free, .free, .free, .free]⟩]
  pageDirectory := 0
  pagingEnabled := false
  cr3 := 0
  cr0Pg := false

theorem pfaInv_smallMachine : PfaInv smallMachine.pfa [] := by
  refine ⟨⟨?_, ?_, ?_⟩, [⟨0x200000, [.free, .free, .free, .free]⟩], rfl, by decide +kernel⟩
  · simp [shape, smallMachine]
  · simp [shape, smallMachine, PfaRegion.nbPages]
  · simp [shape, smallMachine]

theorem smallBoot_below : smallBoot.Below := ⟨by decide, by decide, by decide⟩

theorem pagingSetup_small : ∃ s, pagingSetup smallBoot smallMachine = .ok s :=
  pagingSetup_total smallBoot_below pfaInv_smallMachine (by simp [NoNullFrame, smallMachine])
    rfl rfl (by decide +kernel)
    (by decide) (by decide +kernel) (by decide +kernel)

/-- The page of the text screen is mapped after the setup, and can be unmapped. -/
theorem paging_refines_map_small :
    ∃ s s', pagingSetup smallBoot smallMachine = .ok s ∧
      walk s.mem s.cr3 0xb8000 = some (0xb8000, 0x1b) ∧
      unmapPage s 0xb8000 = .ok (true, s') ∧ walk s'.mem s.cr3 0xb8000 = none := by
  obtain ⟨s, hs⟩ := pagingSetup_small
  have hrun : Run.run PageRun.step ⟨s, []⟩ [] = .ok ⟨s, []⟩ := rfl
  obtain ⟨hrep, hcalls, hunmap⟩ := paging_refines_map smallBoot_below pfaInv_smallMachine rfl rfl hs
    (by simp) hrun
  have hboot : bootMap smallBoot 0xb8000 = some (0xb8000, 0x1b) := by decide +kernel
  rw [List.zip_nil_left, List.foldl_nil] at hrep
  have hmapped : walk s.mem s.cr3 0xb8000 = some (0xb8000, 0x1b) := by
    rw [← hboot]
    exact hrep 0xb8000 (by decide) (by decide)
  obtain ⟨ret, s', hcall, hret⟩ := hunmap 0xb8000 (by decide)
  obtain rfl : ret = true := hret.mpr ⟨by decide, by simp only [hmapped]; simp⟩
  refine ⟨s, s', hs, hmapped, hcall, ?_⟩
  have hafter := (hcalls (.unmap 0xb8000) (by decide) true s' hcall).2 rfl 0xb8000 (by decide)
    (by decide)
  rw [hafter]
  exact Function.update_self ..

end Ahos
