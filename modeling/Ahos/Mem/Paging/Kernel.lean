import Ahos.Mem.Paging.Runs
import Ahos.Mem.Pfa.Frames
import Mathlib.Data.Finset.Card
import Mathlib.Data.List.Nodup

/-!
# Kernel mappings

The kernel maps all its pages with the same flags. Such a mapping is never refused: it
is made, or the page is already mapped, or there is no frame for a page table. A list of
pages can be mapped to itself if and only if no page is mapped twice, as long as there
are frames for the tables.
-/

namespace Ahos

/-! ## Kernel mappings -/

/-- Every table was made for kernel pages without cache. -/
def KernelTables (mem : ℕ → ℕ) (dir : ℕ) : Prop :=
  ∀ d < 1023, isPresent (pde mem dir d) = true → pde mem dir d &&& pgConsistentMask = rwKernelNocache

/-- The flags of the entry for a new table. -/
theorem newPde_flags {table : ℕ} (hmod : table % 4096 = 0) :
    newPde rwKernelNocache table &&& pgConsistentMask = rwKernelNocache := by
  have hlow : pgConsistentMask = (2 ^ 12 - 1) &&& pgConsistentMask := by decide
  have hword : newPde rwKernelNocache table = table + 0x1b := pde_eq hmod
  have hmod' : (table + 0x1b) % 2 ^ 12 = 0x1b := by omega
  rw [hlow, ← Nat.and_assoc, Word32.and_low, hword, hmod']
  decide

/-- What a new kernel mapping of `virt` does to the directory and the allocator. -/
structure KernelMapped (mem : ℕ → ℕ) (pfa : PfaMeta) (dir virt : ℕ) (mem' : ℕ → ℕ)
    (pfa' : PfaMeta) : Prop where
  fresh : walk mem dir virt = none
  kernel : KernelTables mem' dir
  present : ∀ d < 1023, isPresent (pde mem' dir d) = true ↔
    isPresent (pde mem dir d) = true ∨ d = pdIndex virt
  frames : isPresent (pde mem dir (pdIndex virt)) = true ∧ pfa' = pfa ∨
    isPresent (pde mem dir (pdIndex virt)) = false ∧
      ∃ table, table ≠ 0 ∧ pfaAlloc pfa 1 = .ok (table, pfa')

section Kernel

variable {mem : ℕ → ℕ} {pfa : PfaMeta} {dir phys virt : ℕ} {rest : List (ℕ × ℕ)}

/-- A kernel mapping of an aligned page is never refused: it is made, or the page is already
mapped, or there is no frame for its table. -/
theorem mapPhys_kernel (hinv : PagingInv mem pfa dir rest) (hk : KernelTables mem dir)
    (hv : virt < 0xffc00000) (hphys : phys % 4096 = 0) (hvirt : virt % 4096 = 0) :
    (∃ mem' pfa', mapPhys mem pfa dir phys virt rwKernelNocache = .ok (true, mem', pfa') ∧
        KernelMapped mem pfa dir virt mem' pfa') ∨
      (walk mem dir virt ≠ none ∧ mapPhys mem pfa dir phys virt rwKernelNocache =
        panic "overwriting an already present mapping!") ∨
      (walk mem dir virt = none ∧ isPresent (pde mem dir (pdIndex virt)) = false ∧
        (∃ pfa', pfaAlloc pfa 1 = .ok (0, pfa')) ∧
        mapPhys mem pfa dir phys virt rwKernelNocache =
          panic "failed to create new page table") := by
  have hd := pdIndex_lt hv
  have ht := ptIndex_lt virt
  have hbad : ¬ (pageOffset phys ≠ 0 ∨ pageOffset virt ≠ 0 ∨ rwKernelNocache &&& maskAddr ≠ 0) := by
    simp only [pageOffset_eq, hphys, hvirt]
    decide
  by_cases hp : isPresent (pde mem dir (pdIndex virt)) = true
  · have hcons : ¬ rwKernelNocache &&& pgConsistentMask ≠
        pde mem dir (pdIndex virt) &&& pgConsistentMask := by
      rw [hk _ hd hp]
      decide
    have hapart := hinv.table_dir hd hp
    by_cases hpte : isPresent (mem (tableAddr mem dir (pdIndex virt) + 4 * ptIndex virt)) = true
    · refine .inr (.inl ⟨by simp [walk, hp, hpte], ?_⟩)
      rw [mapPhys, if_neg hbad, if_pos hp, if_neg hcons, if_pos hpte]
    · have hmap : mapPhys mem pfa dir phys virt rwKernelNocache = .ok (true, Function.update mem
          (tableAddr mem dir (pdIndex virt) + 4 * ptIndex virt)
          (phys ||| rwKernelNocache ||| maskPresent), pfa) := by
        rw [mapPhys, if_neg hbad, if_pos hp, if_neg hcons, if_neg hpte]
      have hentry : ∀ e < 1023, pde (Function.update mem
          (tableAddr mem dir (pdIndex virt) + 4 * ptIndex virt)
          (phys ||| rwKernelNocache ||| maskPresent)) dir e = pde mem dir e := fun e he =>
        Function.update_of_ne (by omega) _ _
      refine .inl ⟨_, pfa, hmap, by simp [walk, hp, hpte], ?_, ?_, .inl ⟨hp, rfl⟩⟩
      · intro d hd' hp'
        rw [hentry d hd'] at hp' ⊢
        exact hk d hd' hp'
      · intro d hd'
        rw [hentry d hd']
        refine ⟨.inl, fun h => h.elim id ?_⟩
        rintro rfl
        exact hp
  · obtain ⟨table, pfa₁, halloc, -, -⟩ := pfaAlloc_spec hinv.owned 1
    have hwalk : walk mem dir virt = none := by simp [walk, hp]
    by_cases hne : table = 0
    · subst hne
      refine .inr (.inr ⟨hwalk, by simpa using hp, ⟨pfa₁, halloc⟩, ?_⟩)
      rw [mapPhys, if_neg hbad, if_neg hp, halloc]
      rfl
    · obtain ⟨-, hmod, hlt, hapart⟩ := hinv.new_frame halloc hne
      obtain ⟨hpres, haddr⟩ := newPde_spec rwKernelNocache hmod (by omega)
      have hentry : ∀ e < 1023, pde (Function.update
          (newTableMem mem dir (pdIndex virt) rwKernelNocache table) (table + 4 * ptIndex virt)
          (phys ||| rwKernelNocache ||| maskPresent)) dir e =
            if e = pdIndex virt then newPde rwKernelNocache table else pde mem dir e := by
        intro e he
        rw [pde, Function.update_of_ne (by omega)]
        exact pde_newTableMem _ _ _ hapart (by omega)
      have hmap : mapPhys mem pfa dir phys virt rwKernelNocache = .ok (true, Function.update
          (newTableMem mem dir (pdIndex virt) rwKernelNocache table) (table + 4 * ptIndex virt)
          (phys ||| rwKernelNocache ||| maskPresent), pfa₁) := by
        rw [mapPhys, if_neg hbad, if_neg hp, halloc, Run.ok_bind]
        simp only [if_neg hne]
      refine .inl ⟨_, pfa₁, hmap, hwalk, ?_, ?_, .inr ⟨by simpa using hp, table, hne, halloc⟩⟩
      · intro d hd' hp'
        rw [hentry d hd'] at hp' ⊢
        split_ifs at hp' ⊢
        · exact newPde_flags hmod
        · exact hk d hd' hp'
      · intro d hd'
        rw [hentry d hd']
        split_ifs with heq
        · simp [hpres, heq]
        · simp [heq]

/-- A new kernel mapping leaves the regions where they are. -/
theorem KernelMapped.shape_eq {mem' : ℕ → ℕ} {pfa' : PfaMeta} (hinv : PagingInv mem pfa dir rest)
    (h : KernelMapped mem pfa dir virt mem' pfa') : shape pfa' = shape pfa := by
  rcases h.frames with ⟨-, rfl⟩ | ⟨-, table, -, halloc⟩
  · rfl
  · exact (hinv.owned.of_alloc halloc).1

end Kernel

/-! ## The pages of the loops -/

/-- The pages from `start` on that begin below `stop`. -/
def pagesIn (start stop : ℕ) : List ℕ :=
  (List.range ((stop - start + 4095) / 4096)).map fun i => start + 4096 * i

theorem pagesIn_of_le {start stop : ℕ} (h : stop ≤ start) : pagesIn start stop = [] := by
  have : (stop - start + 4095) / 4096 = 0 := by omega
  rw [pagesIn, this]
  rfl

theorem pagesIn_cons {start stop : ℕ} (h : start < stop) :
    pagesIn start stop = start :: pagesIn (start + 4096) stop := by
  have : (stop - start + 4095) / 4096 = (stop - (start + 4096) + 4095) / 4096 + 1 := by omega
  rw [pagesIn, pagesIn, this, List.range_succ_eq_map, List.map_cons, List.map_map]
  simp only [Nat.mul_zero, Nat.add_zero, List.cons.injEq, true_and]
  refine List.map_congr_left fun i _ => ?_
  simp only [Function.comp]
  omega

theorem mem_pagesIn {start stop a : ℕ} :
    a ∈ pagesIn start stop ↔ start ≤ a ∧ a < stop ∧ (a - start) % 4096 = 0 := by
  simp only [pagesIn, List.mem_map, List.mem_range]
  constructor
  · rintro ⟨i, hi, rfl⟩
    omega
  · rintro ⟨hlo, hhi, hmod⟩
    exact ⟨(a - start) / 4096, by omega, by omega⟩

theorem nodup_pagesIn (start stop : ℕ) : (pagesIn start stop).Nodup := by
  refine List.Nodup.map (fun i j (h : start + 4096 * i = start + 4096 * j) => ?_) List.nodup_range
  omega

/-- A loop over the addresses `p + i * PAGE_SIZE`, computed in 32 bits, visits these pages. -/
theorem foldlM_pages {σ : Type} {f : σ → ℕ → Outcome σ} {s : σ} {p n : ℕ}
    (h : p + 4096 * n ≤ 4294967296) :
    (List.range n).foldlM (fun s i => f s (Word32.add p (Word32.mul i 4096))) s =
      (pagesIn p (p + 4096 * n)).foldlM f s := by
  have hcount : (p + 4096 * n - p + 4095) / 4096 = n := by omega
  have haddr : ∀ i ∈ List.range n, Word32.add p (Word32.mul i 4096) = p + 4096 * i := by
    intro i hi
    have := List.mem_range.mp hi
    rw [Word32.add_mul_wrap, Word32.wrap_of_lt (by omega)]
  rw [pagesIn, hcount, List.foldlM_map]
  generalize List.range n = is at haddr
  induction is generalizing s with
  | nil => rfl
  | cons i is ih =>
    rw [List.foldlM_cons, List.foldlM_cons, haddr i (List.mem_cons_self ..)]
    exact congrArg _ (funext fun t => ih fun j hj => haddr j (List.mem_cons_of_mem _ hj))

/-- Mapping a list of pages to themselves. -/
def mapAll (msg : String) (s : Machine) (pages : List ℕ) : Outcome Machine :=
  pages.foldlM (fun s addr => mapIdentity s addr msg) s

theorem mapAll_append (msg : String) (s : Machine) (pages pages' : List ℕ) :
    mapAll msg s (pages ++ pages') = mapAll msg s pages >>= fun s => mapAll msg s pages' := by
  simp [mapAll, List.foldlM_append]

/-- The counter of the loop does not wrap around below the last page. -/
theorem mapRange_eq {msg : String} {fuel start stop : ℕ} {s : Machine} (hstop : stop ≤ 0xfffff000)
    (hfuel : (stop - start + 4095) / 4096 < fuel) :
    mapRange msg fuel s start stop = mapAll msg s (pagesIn start stop) := by
  induction fuel generalizing s start with
  | zero => omega
  | succ fuel ih =>
    rw [mapRange]
    split_ifs with hlt
    · have hnext : Word32.add start 4096 = start + 4096 := Word32.add_of_lt (by omega)
      rw [pagesIn_cons hlt, mapAll, List.foldlM_cons, hnext]
      refine congrArg _ (funext fun s => ?_)
      exact ih (by omega)
    · rw [pagesIn_of_le (by omega)]
      rfl

/-- The message of the panic does not matter when there is none. -/
theorem mapAll_ok_congr {msg msg' : String} {s s' : Machine} {pages : List ℕ}
    (h : mapAll msg s pages = .ok s') : mapAll msg' s pages = .ok s' := by
  induction pages generalizing s with
  | nil => exact h
  | cons a pages ih =>
    rw [mapAll, List.foldlM_cons, Run.bind_eq_ok] at h ⊢
    obtain ⟨t, ht, h⟩ := h
    refine ⟨t, ?_, ih h⟩
    unfold mapIdentity at ht ⊢
    rw [Run.bind_eq_ok] at ht ⊢
    obtain ⟨⟨mapped, u⟩, hmap, ht⟩ := ht
    refine ⟨_, hmap, ?_⟩
    cases mapped with
    | false => cases ht
    | true => exact ht

/-! ## Mapping many pages -/

section MapAll

variable {s s' : Machine} {dir : ℕ} {rest : List (ℕ × ℕ)} {msg : String} {pages : List ℕ}

/-- A machine in the kernel's hands: the code reaches the directory, the tables are owned and
were made for kernel pages. -/
structure KernelPaging (s : Machine) (dir : ℕ) (rest : List (ℕ × ℕ)) : Prop where
  reaches : Reaches s dir
  inv : PagingInv s.mem s.pfa dir rest
  kernel : KernelTables s.mem dir

/-- The flags of a mapped kernel page. -/
def kernelFlags : ℕ := rwKernelNocache ||| maskPresent

/-- A page is mapped to itself as the physical function says. -/
theorem mapIdentity_mapPhys {a : ℕ} (hr : Reaches s dir) (hinv : PagingInv s.mem s.pfa dir rest)
    (ha : a < 0xffc00000) (hmap : mapIdentity s a msg = .ok s') :
    ∃ mem' pfa', mapPhys s.mem s.pfa dir a a rwKernelNocache = .ok (true, mem', pfa') ∧
      s' = { s with mem := mem', pfa := pfa' } := by
  unfold mapIdentity at hmap
  rw [Run.bind_eq_ok] at hmap
  obtain ⟨⟨mapped, t⟩, hcall, hret⟩ := hmap
  rw [mapPage_eq hr hinv (ha.trans (by omega))] at hcall
  cases hphys : mapPhys s.mem s.pfa dir a a rwKernelNocache with
  | error e =>
    rw [hphys] at hcall
    cases hcall
  | ok x =>
    obtain ⟨b, mem', pfa'⟩ := x
    rw [hphys] at hcall
    obtain ⟨rfl, rfl⟩ := Prod.mk.inj (Except.ok.inj hcall)
    cases b with
    | false => cases hret
    | true => exact ⟨mem', pfa', rfl, (Except.ok.inj hret).symm⟩

/-- A page mapped to itself. -/
theorem mapIdentity_ok {a : ℕ} (h : KernelPaging s dir rest) (ha : a < 0xffc00000)
    (hmap : mapIdentity s a msg = .ok s') :
    KernelPaging s' dir rest ∧ shape s'.pfa = shape s.pfa ∧ a % 4096 = 0 ∧
      walk s.mem dir a = none ∧
      Represents s'.mem dir (Function.update (walk s.mem dir) a (some (a, kernelFlags))) := by
  obtain ⟨mem', pfa', hphys, rfl⟩ := mapIdentity_mapPhys h.reaches h.inv ha hmap
  obtain ⟨-, htrue⟩ := mapPhys_spec h.inv ha (by omega) (by decide) hphys
  obtain ⟨halign, hfresh, hinv', hwalk⟩ := htrue rfl
  have hmapped : KernelMapped s.mem s.pfa dir a mem' pfa' := by
    rcases mapPhys_kernel h.inv h.kernel ha halign halign with
      ⟨mem'', pfa'', hk, hmapped⟩ | ⟨-, hk⟩ | ⟨-, -, -, hk⟩
    · rw [hphys] at hk
      obtain ⟨-, rfl, rfl⟩ := Prod.mk.inj (Except.ok.inj hk) |>.imp_right Prod.mk.inj
      exact hmapped
    · rw [hphys] at hk
      cases hk
    · rw [hphys] at hk
      cases hk
  refine ⟨⟨h.reaches.update _ _, hinv', hmapped.kernel⟩, hmapped.shape_eq h.inv, halign, hfresh,
    fun v hv hva => ?_⟩
  rw [hwalk v hv hva, Function.update_apply]
  rfl

/-- A list of pages mapped to themselves. -/
theorem mapAll_ok (h : KernelPaging s dir rest) (hlt : ∀ a ∈ pages, a < 0xffc00000)
    (hmap : mapAll msg s pages = .ok s') :
    KernelPaging s' dir rest ∧ shape s'.pfa = shape s.pfa ∧ pages.Nodup ∧
      (∀ a ∈ pages, a % 4096 = 0 ∧ walk s.mem dir a = none) ∧
      Represents s'.mem dir fun v => if v ∈ pages then some (v, kernelFlags) else walk s.mem dir v := by
  induction pages generalizing s with
  | nil =>
    obtain rfl := Except.ok.inj hmap
    exact ⟨h, rfl, List.nodup_nil, by simp, fun v _ _ => by simp⟩
  | cons a pages ih =>
    rw [mapAll, List.foldlM_cons, Run.bind_eq_ok] at hmap
    obtain ⟨t, ha, hmap⟩ := hmap
    obtain ⟨ht, hshape, halign, hfresh, hrep⟩ := mapIdentity_ok h (hlt a (List.mem_cons_self ..)) ha
    obtain ⟨hs', hshape', hnodup, hrest, hrep'⟩ :=
      ih ht (fun b hb => hlt b (List.mem_cons_of_mem _ hb)) hmap
    -- the pages that follow were not mapped by the first call
    have hstep : ∀ b ∈ pages, b ≠ a ∧ walk s.mem dir b = none := by
      intro b hb
      obtain ⟨hbalign, hbfresh⟩ := hrest b hb
      rw [hrep b (hlt b (List.mem_cons_of_mem _ hb)) hbalign, Function.update_apply] at hbfresh
      split_ifs at hbfresh with hba
      exact ⟨hba, hbfresh⟩
    refine ⟨hs', hshape'.trans hshape,
      List.nodup_cons.mpr ⟨fun hmem => (hstep a hmem).1 rfl, hnodup⟩, ?_, ?_⟩
    · intro b hb
      rcases List.mem_cons.mp hb with rfl | hb
      · exact ⟨halign, hfresh⟩
      · exact ⟨(hrest b hb).1, (hstep b hb).2⟩
    · intro v hv hva
      rw [hrep' v hv hva]
      simp only [hrep v hv hva, Function.update_apply]
      by_cases hmem : v ∈ pages
      · simp [hmem]
      · by_cases hva' : v = a <;> simp [hmem, hva']

end MapAll

/-! ## Frames for the tables -/

/-- The number of free page frames. -/
def freeFrames (pfa : PfaMeta) : ℕ := (pfa.map fun r => r.pagemap.count .free).sum

/-- While a frame is free, a call for one frame succeeds and takes one. -/
theorem pfaAllocRegions_one {pfa : PfaMeta}
    (haddr : ∀ r ∈ pfa, ∀ k < r.nbPages, r.pageAddr k ≠ 0) (hfree : 0 < freeFrames pfa) :
    ∃ p pfa', pfaAllocRegions 1 pfa = .ok (p, pfa') ∧ p ≠ 0 ∧
      freeFrames pfa' + 1 = freeFrames pfa := by
  induction pfa with
  | nil => simp [freeFrames] at hfree
  | cons r rest ih =>
    simp only [freeFrames, List.map_cons, List.sum_cons] at hfree ih ⊢
    cases hfind : r.pagemap.findIdx? (fun c => c = .free) with
    | none =>
      -- the region is full, and the search goes on
      have hcount : r.pagemap.count .free = 0 := by
        rw [List.count_eq_zero]
        intro hmem
        simpa using List.findIdx?_eq_none_iff.mp hfind _ hmem
      obtain ⟨p, pfa', hrun, hp, hle⟩ := ih
        (fun t ht => haddr t (List.mem_cons_of_mem _ ht)) (by omega)
      refine ⟨p, r :: pfa', ?_, hp, ?_⟩
      · simp [pfaAllocRegions, pfaAllocRegion, pfaAllocSingle, hfind, hrun]
      · simp only [List.map_cons, List.sum_cons]
        omega
    | some i =>
      obtain ⟨hi, hcell, -⟩ := List.findIdx?_eq_some_iff_getElem.mp hfind
      have hne : r.pageAddr i ≠ badPage := haddr r (List.mem_cons_self ..) i hi
      have hcell' : r.pagemap[i] = .free := by simpa using hcell
      refine ⟨r.pageAddr i, { r with pagemap := r.pagemap.set i .used } :: rest, ?_, hne, ?_⟩
      · simp [pfaAllocRegions, pfaAllocRegion, pfaAllocSingle, hfind, hne]
      · have hset := List.count_set (a := PageState.used) (b := PageState.free) hi
        have hpos : 0 < r.pagemap.count .free := List.count_pos_iff.mpr (hcell' ▸ List.getElem_mem hi)
        simp only [List.map_cons, List.sum_cons]
        rw [hset]
        simp only [hcell', beq_self_eq_true, if_true]
        simp
        omega

theorem pfaAlloc_one {pfa : PfaMeta} {out : List (ℕ × ℕ)} (h : PfaInv pfa out)
    (hnull : NoNullFrame pfa) (hfree : 0 < freeFrames pfa) :
    ∃ p pfa', pfaAlloc pfa 1 = .ok (p, pfa') ∧ p ≠ 0 ∧ freeFrames pfa' + 1 = freeFrames pfa := by
  refine pfaAllocRegions_one (fun r hr k hk => ?_) hfree
  have hshape : (r.firstPage, r.nbPages) ∈ shape pfa :=
    List.mem_map_of_mem (f := fun r : PfaRegion => (r.firstPage, r.nbPages)) hr
  rw [pageAddr_of_lt (h.geometry.bounded _ hshape (by simp only; omega)) hk]
  have := hnull r hr (by omega)
  omega

/-- The directory entries that the pages need and that are not present. -/
def missing (mem : ℕ → ℕ) (dir : ℕ) (pages : List ℕ) : Finset ℕ :=
  (pages.map pdIndex).toFinset.filter fun d => isPresent (pde mem dir d) = false

theorem mem_missing {mem : ℕ → ℕ} {dir d : ℕ} {pages : List ℕ} :
    d ∈ missing mem dir pages ↔
      (∃ a ∈ pages, pdIndex a = d) ∧ isPresent (pde mem dir d) = false := by
  simp [missing]

/-- A new mapping of the first page lowers what the other pages need by the frame it takes. -/
theorem card_missing_step {mem mem' : ℕ → ℕ} {pfa pfa' : PfaMeta} {out : List (ℕ × ℕ)} {dir a : ℕ}
    {pages : List ℕ} (hpfa : PfaInv pfa out) (hnull : NoNullFrame pfa)
    (hlt : ∀ b ∈ a :: pages, b < 0xffc00000) (hmapped : KernelMapped mem pfa dir a mem' pfa')
    (hcard : (missing mem dir (a :: pages)).card ≤ freeFrames pfa) :
    (missing mem' dir pages).card ≤ freeFrames pfa' := by
  have hsub : ∀ d ∈ missing mem' dir pages, d ∈ missing mem dir (a :: pages) ∧ d ≠ pdIndex a := by
    intro d hd
    obtain ⟨⟨b, hb, rfl⟩, hp⟩ := mem_missing.mp hd
    have hlt' := pdIndex_lt (hlt b (List.mem_cons_of_mem _ hb))
    have hpres := hmapped.present _ hlt'
    rw [Bool.eq_false_iff, ne_eq, hpres, not_or, Bool.not_eq_true] at hp
    exact ⟨mem_missing.mpr ⟨⟨b, List.mem_cons_of_mem _ hb, rfl⟩, hp.1⟩, hp.2⟩
  rcases hmapped.frames with ⟨-, rfl⟩ | ⟨hp, table, hne, halloc⟩
  · exact (Finset.card_le_card fun d hd => (hsub d hd).1).trans hcard
  · have hmem : pdIndex a ∈ missing mem dir (a :: pages) :=
      mem_missing.mpr ⟨⟨a, List.mem_cons_self .., rfl⟩, hp⟩
    have hpos := Finset.card_pos.mpr ⟨_, hmem⟩
    obtain ⟨p, pfa'', halloc', -, hfree⟩ := pfaAlloc_one hpfa hnull (by omega)
    rw [halloc] at halloc'
    obtain ⟨-, rfl⟩ := Prod.mk.inj (Except.ok.inj halloc')
    have hle := Finset.card_le_card (t := (missing mem dir (a :: pages)).erase (pdIndex a))
      fun d hd => Finset.mem_erase.mpr ⟨(hsub d hd).2, (hsub d hd).1⟩
    rw [Finset.card_erase_of_mem hmem] at hle
    omega

/-- **Pages that are not mapped yet can be mapped**, as long as there are frames for their
tables. -/
theorem mapAll_total {s : Machine} {dir : ℕ} {rest : List (ℕ × ℕ)} {msg : String}
    {pages : List ℕ} (h : KernelPaging s dir rest) (hnull : NoNullFrame s.pfa)
    (hlt : ∀ a ∈ pages, a < 0xffc00000) (halign : ∀ a ∈ pages, a % 4096 = 0)
    (hnodup : pages.Nodup) (hfresh : ∀ a ∈ pages, walk s.mem dir a = none)
    (hcard : (missing s.mem dir pages).card ≤ freeFrames s.pfa) :
    ∃ s', mapAll msg s pages = .ok s' := by
  induction pages generalizing s with
  | nil => exact ⟨s, rfl⟩
  | cons a pages ih =>
    have ha := List.mem_cons_self (a := a) (l := pages)
    rcases mapPhys_kernel h.inv h.kernel (hlt a ha) (halign a ha) (halign a ha) with
      ⟨mem', pfa', hmap, hmapped⟩ | ⟨hmapped, -⟩ | ⟨-, hp, ⟨pfa', halloc⟩, -⟩
    · have hid : mapIdentity s a msg = .ok { s with mem := mem', pfa := pfa' } := by
        rw [mapIdentity, mapPage_eq h.reaches h.inv ((hlt a ha).trans (by omega)), hmap]
        rfl
      obtain ⟨hs₁, hshape, -, -, hrep⟩ := mapIdentity_ok h (hlt a ha) hid
      obtain ⟨hnot, hnodup⟩ := List.nodup_cons.mp hnodup
      obtain ⟨s', hs'⟩ := ih (s := { s with mem := mem', pfa := pfa' }) hs₁
        (forall_of_shape (P := fun p n => 0 < n → 0 < p) hshape hnull)
        (fun b hb => hlt b (List.mem_cons_of_mem _ hb))
        (fun b hb => halign b (List.mem_cons_of_mem _ hb)) hnodup
        (fun b hb => by
          have hba : b ≠ a := by
            rintro rfl
            exact hnot hb
          rw [hrep b (hlt b (List.mem_cons_of_mem _ hb)) (halign b (List.mem_cons_of_mem _ hb)),
            Function.update_of_ne hba]
          exact hfresh b (List.mem_cons_of_mem _ hb))
        (card_missing_step h.inv.owned hnull hlt hmapped hcard)
      exact ⟨s', by rw [mapAll, List.foldlM_cons, hid]; exact hs'⟩
    · exact absurd (hfresh a ha) hmapped
    · -- a table is missing, so a frame is free
      have hmem : pdIndex a ∈ missing s.mem dir (a :: pages) := mem_missing.mpr ⟨⟨a, ha, rfl⟩, hp⟩
      have hpos := Finset.card_pos.mpr ⟨_, hmem⟩
      obtain ⟨p, pfa'', halloc', hne, -⟩ := pfaAlloc_one h.inv.owned hnull (by omega)
      rw [halloc] at halloc'
      obtain ⟨rfl, -⟩ := Prod.mk.inj (Except.ok.inj halloc')
      exact absurd rfl hne

end Ahos
