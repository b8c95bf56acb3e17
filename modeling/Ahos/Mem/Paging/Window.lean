import Ahos.Mem.Paging.Structure

/-!
# Mapping pages in the window

The page `0xffc00000 + 4096 * d` of the window shows the table of the directory entry `d`. A call of
`map_page` for a page below the window changes no other page, except that the window shows a table
that the call has made. `unmap_page` refuses the pages of the window; `map_page` does not, and there
it writes the entry of the directory itself, so that a frame that need not be a table becomes one.
-/

namespace Ahos

/-- The translations of all pages other than `virt` are the same in both memories, and so are all
entries of the directory other than that of `virt`. -/
structure OnlyMaps (mem mem' : ℕ → ℕ) (dir virt : ℕ) : Prop where
  pages : ∀ v < 4294967296, v % 4096 = 0 → v ≠ virt → translate mem' dir v = translate mem dir v
  directory : ∀ d < 1024, d ≠ pdIndex virt → pde mem' dir d = pde mem dir d

/-- The same, but the window may show another table for `virt`. -/
structure OnlyMapsAndTable (mem mem' : ℕ → ℕ) (dir virt : ℕ) : Prop where
  pages : ∀ v < 4294967296, v % 4096 = 0 → v ≠ virt → v ≠ windowTable (pdIndex virt) →
    translate mem' dir v = translate mem dir v
  directory : ∀ d < 1024, d ≠ pdIndex virt → pde mem' dir d = pde mem dir d

/-! ## The pages of the window -/

theorem exists_windowTable {v : ℕ} (hlo : 0xffc00000 ≤ v) (hhi : v < 4294967296)
    (halign : v % 4096 = 0) : v = windowTable (ptIndex v) := by
  rw [ptIndex_eq, windowTable]
  omega

/-- A page of the window shows a table that is present, and nothing otherwise. -/
theorem translate_windowTable {mem : ℕ → ℕ} {dir d : ℕ} (hself : SelfMapped mem dir)
    (hd : d < 1024) :
    translate mem dir (windowTable d) =
      if isPresent (pde mem dir d) then some (tableAddr mem dir d) else none := by
  split_ifs with hp
  · exact translate_window (t := 0) hself hd (by omega) hp
  · have hpd : pdIndex (windowTable d) = 1023 := by
      rw [pdIndex_eq, windowTable]
      omega
    have hpt : ptIndex (windowTable d) = d := by
      rw [ptIndex_eq, windowTable]
      omega
    have haddr := hself.addr
    rw [tableAddr, pde] at haddr
    rw [pde] at hp
    simp only [translate, hpd, hpt, haddr, if_neg hp, ite_self]

section Call

variable {mem mem' : ℕ → ℕ} {pfa pfa' : PfaMeta} {dir phys virt flags : ℕ} {rest : List (ℕ × ℕ)}

/-- The directory after a successful `map_page`: it has an entry for the page, and no other entry
has changed. -/
theorem pde_mapPhys (hinv : PagingInv mem pfa dir rest) (hv : virt < 0xffc00000)
    (h : mapPhys mem pfa dir phys virt flags = .ok (true, mem', pfa')) :
    (∀ d < 1024, d ≠ pdIndex virt → pde mem' dir d = pde mem dir d) ∧
      (isPresent (pde mem dir (pdIndex virt)) = true →
        pde mem' dir (pdIndex virt) = pde mem dir (pdIndex virt)) ∧
      isPresent (pde mem' dir (pdIndex virt)) = true := by
  have hd := pdIndex_lt hv
  have ht := ptIndex_lt virt
  obtain ⟨hret, -⟩ | ⟨-, -, ⟨hp, -, -, rfl, -⟩ | ⟨hp, table, halloc, hne, rfl⟩⟩ := mapPhys_cases h
  · cases hret
  · -- the table exists, and does not lie in the directory
    have hdir := hinv.table_dir hd hp
    have hpde : ∀ d < 1024, pde (Function.update mem
        (tableAddr mem dir (pdIndex virt) + 4 * ptIndex virt) (phys ||| flags ||| maskPresent)) dir d =
        pde mem dir d := fun d hd' => Function.update_of_ne (by omega) _ _
    exact ⟨fun d hd' _ => hpde d hd', fun _ => hpde _ (by omega), by rw [hpde _ (by omega)]; exact hp⟩
  · -- a new table is linked
    rw [← Bool.not_eq_true] at hp
    obtain ⟨-, hmod, hlt, hapart⟩ := hinv.new_frame halloc hne
    have hpde : ∀ d < 1024, pde (Function.update (newTableMem mem dir (pdIndex virt) flags table)
        (table + 4 * ptIndex virt) (phys ||| flags ||| maskPresent)) dir d =
        if d = pdIndex virt then newPde flags table else pde mem dir d := fun d hd' => by
      rw [← pde_newTableMem mem (pdIndex virt) flags hapart hd']
      exact Function.update_of_ne (by omega) _ _
    refine ⟨fun d hd' hne' => ?_, fun hpres => absurd hpres hp, ?_⟩
    · rw [hpde d hd', if_neg hne']
    · rw [hpde _ (by omega), if_pos rfl]
      exact (newPde_spec flags hmod (by omega)).1

/-- The directory still maps itself. -/
theorem selfMapped_mapPhys (hinv : PagingInv mem pfa dir rest) (hv : virt < 0xffc00000)
    (h : mapPhys mem pfa dir phys virt flags = .ok (true, mem', pfa')) : SelfMapped mem' dir := by
  have hd := pdIndex_lt hv
  have hlast := (pde_mapPhys hinv hv h).1 1023 (by omega) (by omega)
  refine ⟨by rw [hlast]; exact hinv.self.present, ?_⟩
  rw [tableAddr, hlast]
  exact hinv.self.addr

/-- The pages of the window after a successful `map_page`: only the table of the page can be new. -/
theorem translate_windowTable_mapPhys (hinv : PagingInv mem pfa dir rest) (hv : virt < 0xffc00000)
    (h : mapPhys mem pfa dir phys virt flags = .ok (true, mem', pfa')) {d : ℕ} (hd : d < 1024) :
    translate mem' dir (windowTable d) = translate mem dir (windowTable d) ↔
      d ≠ pdIndex virt ∨ isPresent (pde mem dir (pdIndex virt)) = true := by
  obtain ⟨hother, hkept, hpres⟩ := pde_mapPhys hinv hv h
  rw [translate_windowTable (selfMapped_mapPhys hinv hv h) hd, translate_windowTable hinv.self hd]
  by_cases hdv : d = pdIndex virt
  · subst hdv
    by_cases hp : isPresent (pde mem dir (pdIndex virt)) = true
    · simp only [tableAddr, hkept hp, hp, or_true]
    · simp [hpres, hp]
  · simp only [tableAddr, hother d hd hdv]
    simp [hdv]

/-- **Below the window** a successful `map_page` maps its page only, and shows its table in the
window. -/
theorem onlyMapsAndTable_mapPhys (hinv : PagingInv mem pfa dir rest) (hv : virt < 0xffc00000)
    (hphys : phys < 4294967296) (hflags : flags < 4294967296)
    (h : mapPhys mem pfa dir phys virt flags = .ok (true, mem', pfa')) :
    OnlyMapsAndTable mem mem' dir virt := by
  obtain ⟨-, -, -, hwalk⟩ := (mapPhys_spec hinv hv hphys hflags h).2 rfl
  refine ⟨fun v hlt halign hne hne' => ?_, (pde_mapPhys hinv hv h).1⟩
  by_cases hlow : v < 0xffc00000
  · rw [translate_eq_walk, translate_eq_walk, hwalk v hlow halign, if_neg hne]
  · obtain ⟨d, hd, rfl⟩ : ∃ d < 1024, v = windowTable d :=
      ⟨ptIndex v, ptIndex_lt v, exists_windowTable (by omega) hlt halign⟩
    rw [translate_windowTable_mapPhys hinv hv h hd]
    exact .inl fun hdv => hne' (hdv ▸ rfl)

/-- **In the window** a successful `map_page` makes an absent entry of the directory present. -/
theorem mapPhys_window (hself : SelfMapped mem dir) (hlo : 0xffc00000 ≤ virt)
    (hhi : virt < 4294967296)
    (h : mapPhys mem pfa dir phys virt flags = .ok (true, mem', pfa')) :
    isPresent (pde mem dir (ptIndex virt)) = false ∧ ptIndex virt ≠ pdIndex virt ∧
      pde mem' dir (ptIndex virt) = phys ||| flags ||| maskPresent := by
  have hd : pdIndex virt = 1023 := by
    rw [pdIndex_eq]
    omega
  obtain ⟨hret, -⟩ | ⟨-, -, ⟨-, -, hpte, rfl, -⟩ | ⟨hp, -⟩⟩ := mapPhys_cases h
  · cases hret
  · rw [hd, hself.addr] at hpte ⊢
    refine ⟨hpte, ?_, Function.update_self ..⟩
    intro heq
    have hpres := hself.present
    rw [heq] at hpte
    rw [pde, hpte] at hpres
    cases hpres
  · -- the directory is the table of its last entry
    rw [hd, hself.present] at hp
    cases hp

theorem isPresent_pte (phys flags : ℕ) : isPresent (phys ||| flags ||| maskPresent) = true := by
  rw [isPresent_iff]
  exact or_present_mod _

/-- In the window the entry of another page is changed. -/
theorem not_directory_mapPhys (hself : SelfMapped mem dir) (hlo : 0xffc00000 ≤ virt)
    (hhi : virt < 4294967296)
    (h : mapPhys mem pfa dir phys virt flags = .ok (true, mem', pfa')) :
    ¬ ∀ d < 1024, d ≠ pdIndex virt → pde mem' dir d = pde mem dir d := by
  obtain ⟨habsent, hne, hnew⟩ := mapPhys_window hself hlo hhi h
  intro hsame
  have hpres := isPresent_pte phys flags
  rw [← hnew, hsame _ (ptIndex_lt virt) hne, habsent] at hpres
  cases hpres

end Call

/-! ## Runs -/

/-- The arguments of the paging code are words, and pages are mapped below the window only. -/
def PagingOp.MapsBelow : PagingOp → Prop
  | .call (.map physAddr virtAddr flags) =>
    physAddr < 4294967296 ∧ virtAddr < 0xffc00000 ∧ flags < 4294967296
  | .call (.unmap virtAddr) => virtAddr < 4294967296
  | _ => True

/-- `unmap_page` leaves the window alone. -/
theorem unmapPage_window {s s' : Machine} {virt : ℕ} {ret : Bool} (hlo : 0xffc00000 ≤ virt)
    (hhi : virt < 4294967296) (h : unmapPage s virt = .ok (ret, s')) : s' = s := by
  have hd : pdIndex virt = 1023 := by
    rw [pdIndex_eq]
    omega
  unfold unmapPage at h
  rw [if_pos hd] at h
  split_ifs at h
  · exact (Prod.mk.inj (Except.ok.inj h)).2.symm
  · cases h

/-- Every step keeps the invariant. -/
theorem RunInv.step_mapsBelow {dir : ℕ} {r r' : PagingRun} {op : PagingOp} (h : RunInv dir r)
    (hop : op.MapsBelow) (hstep : r.step op = .ok r') : RunInv dir r' := by
  by_cases hbelow : op.Below
  · exact h.step hbelow hstep
  · rcases op with ⟨_ | virt⟩ | _ | _
    · exact absurd hop hbelow
    · -- a page of the window is not unmapped
      rw [PagingRun.step, Run.bind_eq_ok] at hstep
      obtain ⟨⟨ret, machine⟩, hcall, hstep⟩ := hstep
      obtain rfl := Except.ok.inj hstep
      obtain rfl := unmapPage_window (not_lt.mp hbelow) hop hcall
      exact h
    · exact absurd trivial hbelow
    · exact absurd trivial hbelow

/-- What a successful `map_page` with arbitrary arguments does in a state of a run. -/
theorem RunInv.mapPage {dir : ℕ} {r : PagingRun} {m : Machine} {phys virt flags : ℕ}
    (h : RunInv dir r) (hphys : phys < 4294967296) (hvirt : virt < 4294967296)
    (hflags : flags < 4294967296) (hmap : mapPage r.machine phys virt flags = .ok (true, m)) :
    (OnlyMaps r.machine.mem m.mem dir virt ↔
      virt < 0xffc00000 ∧ isPresent (pde r.machine.mem dir (pdIndex virt)) = true) ∧
    (OnlyMapsAndTable r.machine.mem m.mem dir virt ↔ virt < 0xffc00000) := by
  rw [mapPage_eq h.reaches h.inv hvirt] at hmap
  cases hcall : mapPhys r.machine.mem r.machine.pfa dir phys virt flags with
  | error e =>
    rw [hcall] at hmap
    cases hmap
  | ok x =>
    obtain ⟨ret, mem', pfa'⟩ := x
    rw [hcall] at hmap
    obtain ⟨rfl, rfl⟩ := Prod.mk.inj (Except.ok.inj hmap)
    by_cases hlow : virt < 0xffc00000
    · have hmaps := onlyMapsAndTable_mapPhys h.inv hlow hphys hflags hcall
      have htable := translate_windowTable_mapPhys h.inv hlow hcall
        (show pdIndex virt < 1024 by have := pdIndex_lt hlow; omega)
      refine ⟨⟨fun honly => ⟨hlow, ?_⟩, fun hp => ⟨fun v hlt halign hne => ?_, hmaps.directory⟩⟩,
        ⟨fun _ => hlow, fun _ => hmaps⟩⟩
      · -- the table would appear in the window
        have hd := pdIndex_lt hlow
        refine (htable.mp (honly.pages _ ?_ ?_ ?_)).resolve_left (not_not.mpr rfl) <;>
          unfold windowTable <;> omega
      · by_cases hw : v = windowTable (pdIndex virt)
        · rw [hw]
          exact htable.mpr (.inr hp.2)
        · exact hmaps.pages v hlt halign hne hw
    · have hnot := not_directory_mapPhys h.inv.self (not_lt.mp hlow) hvirt hcall
      exact ⟨iff_of_false (fun honly => hnot honly.directory) fun hp => hlow hp.1,
        iff_of_false (fun honly => hnot honly.directory) hlow⟩

/-- **`map_page` and the window.** In every state of a run after `paging_setup`, whose pages were
mapped below the window, a call of `map_page` with any arguments that returns `true` keeps all other
pages and directory entries if and only if its page is below the window and has a table. If the new
table may appear in the window, the condition is that the page is below the window. -/
theorem map_page_only_maps {env : BootRanges} {s₀ s : Machine} {others : List (ℕ × ℕ)}
    (henv : env.Below) (hpfa : PfaInv s₀.pfa others) (hnull : NoNullFrame s₀.pfa)
    (hflag : s₀.pagingEnabled = false) (hpg : s₀.cr0Pg = false)
    (hsetup : pagingSetup env s₀ = .ok s) {ops : List PagingOp}
    (hops : ∀ op ∈ ops, op.MapsBelow) {r : PagingRun}
    (hrun : Run.run PagingRun.step ⟨s, others⟩ ops = .ok r) {phys virt flags : ℕ}
    (hphys : phys < 4294967296) (hvirt : virt < 4294967296) (hflags : flags < 4294967296)
    {m : Machine} (hmap : mapPage r.machine phys virt flags = .ok (true, m)) :
    (OnlyMaps r.machine.mem m.mem s.cr3 virt ↔
      virt < 0xffc00000 ∧ isPresent (pde r.machine.mem s.cr3 (pdIndex virt)) = true) ∧
    (OnlyMapsAndTable r.machine.mem m.mem s.cr3 virt ↔ virt < 0xffc00000) := by
  have hstart := runInv_pagingSetup henv hpfa hnull hflag hpg hsetup
  have hinv : RunInv s.cr3 r := Run.run_invariant
    (fun t op t' hop ht hstep => RunInv.step_mapsBelow ht (hops op hop) hstep) hstart hrun
  exact hinv.mapPage hphys hvirt hflags hmap

/-! ## After the setup -/

/-- The entries of the directory for which no page is mapped stay as they are. -/
theorem pde_mapAll {s s' : Machine} {dir : ℕ} {rest : List (ℕ × ℕ)} {msg : String}
    {pages : List ℕ} (hk : KernelPaging s dir rest) (hlt : ∀ a ∈ pages, a < 0xffc00000)
    (hmap : mapAll msg s pages = .ok s') {d : ℕ} (hd : d < 1024)
    (hnot : d ∉ pages.map pdIndex) : pde s'.mem dir d = pde s.mem dir d := by
  induction pages generalizing s with
  | nil =>
    obtain rfl := Except.ok.inj hmap
    rfl
  | cons a pages ih =>
    rw [mapAll, List.foldlM_cons, Run.bind_eq_ok] at hmap
    obtain ⟨t, ht, hmap⟩ := hmap
    rw [List.map_cons, List.mem_cons, not_or] at hnot
    have ha := hlt a (List.mem_cons_self ..)
    obtain ⟨mem', pfa', hphys, rfl⟩ := mapIdentity_mapPhys hk.reaches hk.inv ha ht
    rw [ih (mapIdentity_ok hk ha ht).1 (fun b hb => hlt b (List.mem_cons_of_mem _ hb)) hmap hnot.2]
    exact (pde_mapPhys hk.inv ha hphys).1 d hd hnot.1

/-- `paging_setup` makes the tables of the bootstrap pages only, and links the directory with the
flags of the kernel. -/
theorem pde_pagingSetup {env : BootRanges} {s s' : Machine} {rest : List (ℕ × ℕ)}
    (henv : env.Below) (hpfa : PfaInv s.pfa rest) (hflag : s.pagingEnabled = false)
    (hpg : s.cr0Pg = false) (h : pagingSetup env s = .ok s') :
    (∀ d < 1023, d ∉ (bootPages env).map pdIndex → isPresent (pde s'.mem s'.cr3 d) = false) ∧
      pde s'.mem s'.cr3 1023 &&& pgConsistentMask = rwKernelNocache &&& pgConsistentMask := by
  obtain ⟨dir, pfa, t, halign, hlt, -, hinv, rfl, hmap⟩ := pagingSetup_ok henv hpfa hpg h
  obtain ⟨hfresh, -⟩ := kernelPaging_fresh (s := s) hflag hpg hinv
  have hbelow := mem_bootPages_lt henv
  have hpde : ∀ d < 1024, d ∉ (bootPages env).map pdIndex →
      pde t.mem dir d = pde (freshDirectoryMem s.mem dir) dir d :=
    fun d hd hnot => pde_mapAll hfresh hbelow hmap hd hnot
  have hpde' : ∀ d, pde (t.window dir).mem (t.window dir).cr3 d = pde t.mem dir d := fun _ => rfl
  refine ⟨fun d hd hnot => ?_, ?_⟩
  · rw [hpde', hpde d (by omega) hnot]
    exact (freshDirectory_spec halign hlt).2 d hd
  · have hlast : 1023 ∉ (bootPages env).map pdIndex := by
      rw [List.mem_map]
      rintro ⟨a, ha, hda⟩
      have := pdIndex_lt (hbelow a ha)
      omega
    rw [hpde', hpde 1023 (by omega) hlast, pde, freshDirectoryMem, Function.update_self,
      flags_pte halign (by decide)]

/-- After the setup of the small machine the entry `2` of the directory is absent. -/
theorem pde_small {s : Machine} (hs : pagingSetup smallBoot smallMachine = .ok s) :
    RunInv s.cr3 ⟨s, []⟩ ∧ isPresent (pde s.mem s.cr3 2) = false ∧
      pde s.mem s.cr3 1023 &&& pgConsistentMask = 0x1a := by
  obtain ⟨habsent, hlast⟩ := pde_pagingSetup smallBoot_below pfaInv_smallMachine rfl rfl hs
  exact ⟨runInv_pagingSetup smallBoot_below pfaInv_smallMachine (by simp [NoNullFrame, smallMachine])
    rfl rfl hs, habsent 2 (by omega) (by decide +kernel), hlast⟩

/-- A call for the page of the window that shows the entry `2` succeeds, and writes this entry. -/
theorem mapPage_window_small {s : Machine} (hs : pagingSetup smallBoot smallMachine = .ok s) :
    ∃ m, mapPage s 0x5000 0xffc02000 0x1a = .ok (true, m) ∧
      ¬ ∀ d < 1024, d ≠ pdIndex 0xffc02000 → pde m.mem s.cr3 d = pde s.mem s.cr3 d := by
  obtain ⟨hinv, habsent, hlast⟩ := pde_small hs
  have hself := hinv.inv.self
  have hcall : mapPhys s.mem s.pfa s.cr3 0x5000 0xffc02000 0x1a =
      .ok (true, Function.update s.mem (s.cr3 + 4 * 2) (0x5000 ||| 0x1a ||| maskPresent), s.pfa) := by
    rw [pde] at habsent
    rw [mapPhys, show pdIndex 0xffc02000 = 1023 by decide, show ptIndex 0xffc02000 = 2 by decide,
      if_neg (by decide), if_pos hself.present, hlast, if_neg (by decide), hself.addr,
      if_neg (by rw [habsent]; exact Bool.false_ne_true)]
  have hnot := not_directory_mapPhys hself (by omega) (by omega) hcall
  refine ⟨{ s with mem := _ }, ?_, hnot⟩
  rw [mapPage_eq hinv.reaches hinv.inv (by omega), hcall]
  rfl

/-- Another owner takes a frame, and a page is mapped. The next page is mapped without a trace on
other pages. -/
theorem map_page_only_maps_small :
    ∃ s r m, pagingSetup smallBoot smallMachine = .ok s ∧
      Run.run PagingRun.step ⟨s, []⟩ [.alloc 1, .call (.map 0x5000 0x300000 0x1a)] = .ok r ∧
      mapPage r.machine 0x6000 0x301000 0x1a = .ok (true, m) ∧
      OnlyMaps r.machine.mem m.mem s.cr3 0x301000 := by
  obtain ⟨run, hrun, hr⟩ := Run.exists_of_map (f := fun r : Machine × PagingRun × Bool × Machine =>
      r.2.2.1 && isPresent (pde r.2.1.machine.mem r.1.cr3 (pdIndex 0x301000)))
    (x := pagingSetup smallBoot smallMachine >>= fun s =>
      Run.run PagingRun.step ⟨s, []⟩ [.alloc 1, .call (.map 0x5000 0x300000 0x1a)] >>= fun r =>
        mapPage r.machine 0x6000 0x301000 0x1a >>= fun m => .ok (s, r, m))
    (b := true) (by decide +kernel)
  obtain ⟨s, hs, hrun⟩ := Run.bind_eq_ok.mp hrun
  obtain ⟨r, hr', hrun⟩ := Run.bind_eq_ok.mp hrun
  obtain ⟨⟨done, m⟩, hm, hrun⟩ := Run.bind_eq_ok.mp hrun
  obtain rfl := Except.ok.inj hrun
  obtain ⟨rfl, hpde⟩ := Bool.and_eq_true_iff.mp hr
  have honly := map_page_only_maps smallBoot_below pfaInv_smallMachine
    (by simp [NoNullFrame, smallMachine]) rfl rfl hs (by simp [PagingOp.MapsBelow]) hr'
    (by decide) (by decide) (by decide) hm
  exact ⟨s, r, m, hs, hr', hm, honly.1.mpr ⟨by decide, hpde⟩⟩

/-- A page of the window is mapped to an arbitrary frame, which becomes a page table. -/
theorem map_page_writes_directory :
    ∃ s m, pagingSetup smallBoot smallMachine = .ok s ∧
      mapPage s 0x5000 0xffc02000 0x1a = .ok (true, m) ∧
      ¬ OnlyMaps s.mem m.mem s.cr3 0xffc02000 ∧ ¬ OnlyMapsAndTable s.mem m.mem s.cr3 0xffc02000 := by
  obtain ⟨s, hs⟩ := pagingSetup_small
  obtain ⟨m, hm, hnot⟩ := mapPage_window_small hs
  exact ⟨s, m, hs, hm, fun h => hnot h.directory, fun h => hnot h.directory⟩

end Ahos
