import Ahos.Mem.Kmalloc.Runs
import Ahos.Mem.Paging.Setup

/-!
# Who owns which page frame

After `paging_setup`, the page frames that are not free belong to the page directory, to
the page tables, to the blocks of the allocator and to its big allocations, each to one of
them only. Free frames are not mapped, and the frames of the allocator are mapped to
themselves. So `kmalloc` never maps a page twice, and `big_free` never unmaps a page that is
not mapped.
-/

namespace Ahos

/-! ## Mapping and unmapping kernel pages -/

/-- The machine `s'` differs from `s` in memory and in the allocator only: its tables are well
formed, its page map is `m`, and no frame has become free. -/
structure Remapped (s : Machine) (dir : ℕ) (rest : List (ℕ × ℕ)) (m : ℕ → Option (ℕ × ℕ))
    (s' : Machine) : Prop where
  same : s' = { s with mem := s'.mem, pfa := s'.pfa }
  paging : KernelPaging s' dir rest
  shape_eq : shape s'.pfa = shape s.pfa
  free : ∀ f, FrameIs s'.pfa f .free → FrameIs s.pfa f .free
  rep : Represents s'.mem dir m

/-- The page map after the entries of some pages were changed. -/
theorem Remapped.walk_eq {s t : Machine} {dir : ℕ} {rest : List (ℕ × ℕ)} {pages : List ℕ}
    {val : ℕ → Option (ℕ × ℕ)}
    (h : Remapped s dir rest (fun v => if v ∈ pages then val v else walk s.mem dir v) t) {f : ℕ}
    (hf : f < 0xffc00000 ∧ f % 4096 = 0) :
    walk t.mem dir f = if f ∈ pages then val f else walk s.mem dir f :=
  h.rep f hf.1 hf.2

/-- A successful allocation of a frame frees none. -/
theorem free_of_pfaAlloc {pfa pfa' : PfaMeta} {out : List (ℕ × ℕ)} {n p : ℕ} (h : PfaInv pfa out)
    (hnull : NoNullFrame pfa) (halloc : pfaAlloc pfa n = .ok (p, pfa')) :
    ∀ f, FrameIs pfa' f .free → FrameIs pfa f .free := by
  obtain ⟨hshape, hinv⟩ := h.of_alloc halloc
  have hnull' : NoNullFrame pfa' :=
    forall_of_shape (P := fun p n => 0 < n → 0 < p) hshape hnull
  intro f hf
  rw [hinv.free_iff hnull', hshape] at hf
  refine (h.free_iff hnull).mpr ⟨hf.1, fun hin => hf.2 ?_⟩
  obtain ⟨a, ha, hi⟩ := hin
  split_ifs
  · exact ⟨a, ha, hi⟩
  · exact ⟨a, List.mem_cons_of_mem _ ha, hi⟩

/-- There is no frame for a page table. -/
def NoTable (e : Halt) : Prop := e = .panic "failed to create new page table"

section Kernel

variable {s : Machine} {dir : ℕ} {rest : List (ℕ × ℕ)} {bad : Halt → Prop}

/-- A page that is mapped to itself. -/
theorem mapIdentity_remapped {a : ℕ} {msg : String} {s' : Machine} (h : KernelPaging s dir rest)
    (hnull : NoNullFrame s.pfa) (ha : a < 0xffc00000) (hmap : mapIdentity s a msg = .ok s') :
    Remapped s dir rest (Function.update (walk s.mem dir) a (some (a, kernelFlags))) s' := by
  obtain ⟨hs', hshape, halign, -, hrep⟩ := mapIdentity_ok h ha hmap
  rw [mapIdentity, mapPage_eq h.reaches h.inv (ha.trans (by omega))] at hmap
  rcases mapPhys_kernel h.inv h.kernel ha halign halign with
    ⟨mem', pfa', hphys, hmapped⟩ | ⟨-, hpanic⟩ | ⟨-, -, -, hpanic⟩
  · rw [hphys] at hmap
    obtain rfl := Except.ok.inj hmap
    refine ⟨rfl, hs', hshape, ?_, hrep⟩
    rcases hmapped.frames with ⟨-, rfl⟩ | ⟨-, table, -, halloc⟩
    · exact fun f hf => hf
    · exact free_of_pfaAlloc h.inv.owned hnull halloc
  · rw [hpanic] at hmap
    cases hmap
  · rw [hpanic] at hmap
    cases hmap

/-- A page that is not mapped can be mapped to itself, unless there is no frame for its table. -/
theorem mapIdentity_returns {a : ℕ} {msg : String} (h : KernelPaging s dir rest)
    (hnull : NoNullFrame s.pfa) (ha : a < 0xffc00000) (halign : a % 4096 = 0)
    (hfresh : walk s.mem dir a = none) :
    Run.Returns NoTable (mapIdentity s a msg)
      (Remapped s dir rest (Function.update (walk s.mem dir) a (some (a, kernelFlags)))) := by
  refine ⟨fun s' hs' => mapIdentity_remapped h hnull ha hs', fun e he => ?_⟩
  rw [mapIdentity, mapPage_eq h.reaches h.inv (ha.trans (by omega))] at he
  rcases mapPhys_kernel h.inv h.kernel ha halign halign with
    ⟨mem', pfa', hphys, -⟩ | ⟨hmapped, -⟩ | ⟨-, -, -, hpanic⟩
  · rw [hphys] at he
    cases he
  · exact absurd hfresh hmapped
  · rw [hpanic] at he
    exact (Except.error.inj he).symm

/-- Unmapping a page keeps the flags of the tables. -/
theorem kernelTables_unmapPhys {mem : ℕ → ℕ} {pfa : PfaMeta} {virt : ℕ}
    (hinv : PagingInv mem pfa dir rest) (hk : KernelTables mem dir) (hv : virt < 0xffc00000) :
    KernelTables (unmapPhys mem dir virt).2 dir := by
  simp only [unmapPhys]
  split_ifs with hcond
  · have hd := pdIndex_lt hv
    have ht := ptIndex_lt virt
    have hapart := hinv.table_dir hd hcond.2.1
    have hentry : ∀ d < 1023, ∀ word, pde (Function.update mem
        (tableAddr mem dir (pdIndex virt) + 4 * ptIndex virt) word) dir d = pde mem dir d :=
      fun d hd word => Function.update_of_ne (by omega) _ _
    intro d hd' hp
    rw [hentry d hd'] at hp ⊢
    exact hk d hd' hp
  · exact hk

/-- A page that is mapped can be unmapped. -/
theorem unmapIdentity_returns {a : ℕ} (h : KernelPaging s dir rest) (ha : a < 0xffc00000)
    (halign : a % 4096 = 0) (hmapped : walk s.mem dir a ≠ none) :
    Run.Returns bad (unmapIdentity s a)
      (Remapped s dir rest (Function.update (walk s.mem dir) a none)) := by
  obtain ⟨htrue, -, hspec⟩ := unmapPhys_spec h.inv ha
  have hret := htrue.mpr ⟨halign, hmapped⟩
  obtain ⟨hinv, hwalk⟩ := hspec hret
  rw [unmapIdentity, unmapPage_eq h.reaches h.inv ha, hret]
  refine Run.returns_ok ⟨rfl, ?_, rfl, fun f hf => hf, fun v hv hva => ?_⟩
  · exact ⟨h.reaches.update _ _, hinv, kernelTables_unmapPhys h.inv h.kernel ha⟩
  · rw [hwalk v hv hva, Function.update_apply]

/-- A loop that changes the entries of a list of pages, one after the other. -/
theorem foldlM_remapped {f : Machine → ℕ → Outcome Machine} (pre : Option (ℕ × ℕ) → Prop)
    {val : ℕ → Option (ℕ × ℕ)}
    (hf : ∀ s a, KernelPaging s dir rest → NoNullFrame s.pfa → a < 0xffc00000 → a % 4096 = 0 →
      pre (walk s.mem dir a) → Run.Returns bad (f s a)
        (Remapped s dir rest (Function.update (walk s.mem dir) a (val a))))
    {pages : List ℕ} (h : KernelPaging s dir rest) (hnull : NoNullFrame s.pfa)
    (hpages : ∀ a ∈ pages, a < 0xffc00000 ∧ a % 4096 = 0 ∧ pre (walk s.mem dir a))
    (hnodup : pages.Nodup) :
    Run.Returns bad (pages.foldlM f s)
      (Remapped s dir rest fun v => if v ∈ pages then val v else walk s.mem dir v) := by
  induction pages generalizing s with
  | nil => exact Run.returns_ok ⟨rfl, h, rfl, fun f hf => hf, fun v _ _ => by simp⟩
  | cons a pages ih =>
    obtain ⟨hnot, hnodup⟩ := List.nodup_cons.mp hnodup
    obtain ⟨ha, halign, hpre⟩ := hpages a (List.mem_cons_self ..)
    rw [List.foldlM_cons]
    refine (hf s a h hnull ha halign hpre).bind fun t ht => ?_
    have hnull' : NoNullFrame t.pfa :=
      forall_of_shape (P := fun p n => 0 < n → 0 < p) ht.shape_eq hnull
    refine (ih ht.paging hnull' (fun b hb => ?_) hnodup).imp fun u hu => ?_
    · -- the other pages are as before
      obtain ⟨hb', hbalign, hbpre⟩ := hpages b (List.mem_cons_of_mem _ hb)
      have hne : b ≠ a := by
        rintro rfl
        exact hnot hb
      refine ⟨hb', hbalign, ?_⟩
      rwa [ht.rep b hb' hbalign, Function.update_of_ne hne]
    · refine ⟨?_, hu.paging, hu.shape_eq.trans ht.shape_eq, fun f hf => ht.free f (hu.free f hf),
        fun v hv hva => ?_⟩
      · rw [hu.same, ht.same]
      · rw [hu.rep v hv hva]
        simp only [ht.rep v hv hva, Function.update_apply]
        by_cases hmem : v ∈ pages
        · simp [hmem]
        · by_cases hva' : v = a
          · simp [hva']
          · simp [hmem, hva']

/-- Mapping frames is mapping their pages. -/
theorem mapFrames_eq {p n : ℕ} (h : p + 4096 * n ≤ 4294967296) :
    mapFrames s p n =
      (pagesIn p (p + 4096 * n)).foldlM (fun s a => mapIdentity s a notImplemented) s :=
  foldlM_pages (f := fun s a => mapIdentity s a notImplemented) h

end Kernel

/-! ## The frames of the allocator -/

/-- The frames `mapped` and `pending` belong to the allocator, next to those of the directory and
the tables, and the mapped ones are mapped to themselves. Nothing is said about frames that are
not in use. -/
structure HeldFrames (dir : ℕ) (s : Machine) (mapped pending : List (ℕ × ℕ)) : Prop where
  mode : s.cr0Pg = true ∧ s.cr3 = dir
  paging : KernelPaging s dir (pending ++ mapped)
  null : NoNullFrame s.pfa
  below : ∀ r ∈ s.pfa, 0 < r.nbPages → r.firstPage + 4096 * r.nbPages ≤ 0xffc00000
  mapped : ∀ f, Within mapped f → walk s.mem dir f = some (f, kernelFlags)

/-- The frames `mapped` and `pending` belong to the allocator, next to those of the directory and
the tables. Mapped frames are mapped to themselves, pending and free frames are not mapped. -/
structure MappedFrames (dir : ℕ) (s : Machine) (mapped pending : List (ℕ × ℕ)) : Prop where
  mode : s.cr0Pg = true ∧ s.cr3 = dir
  paging : KernelPaging s dir (pending ++ mapped)
  null : NoNullFrame s.pfa
  below : ∀ r ∈ s.pfa, 0 < r.nbPages → r.firstPage + 4096 * r.nbPages ≤ 0xffc00000
  mapped : ∀ f, Within mapped f → walk s.mem dir f = some (f, kernelFlags)
  pending : ∀ f, Within pending f → walk s.mem dir f = none
  free : ∀ f, FrameIs s.pfa f .free → walk s.mem dir f = none

section Frames

variable {dir : ℕ} {s : Machine} {mapped pending : List (ℕ × ℕ)}

/-- The directory and the tables, and the frames of the allocator. -/
def ownedFrames (s : Machine) (dir : ℕ) (mine : List (ℕ × ℕ)) : List (ℕ × ℕ) :=
  (dir, 1) :: (tables s.mem dir ++ mine)

/-- A frame of a region is a page below the window. -/
theorem frame_below {pfa : PfaMeta} {out : List (ℕ × ℕ)} (h : PfaInv pfa out)
    (hbelow : ∀ r ∈ pfa, 0 < r.nbPages → r.firstPage + 4096 * r.nbPages ≤ 0xffc00000) {f : ℕ}
    {c : PageState} (hf : FrameIs pfa f c) : f < 0xffc00000 ∧ f % 4096 = 0 := by
  obtain ⟨r, hr, k, hk, rfl⟩ := hf
  have hlt : k < r.nbPages := (List.getElem?_eq_some_iff.mp hk).1
  have hend := hbelow r hr (by omega)
  have hshape : (r.firstPage, r.nbPages) ∈ shape pfa :=
    List.mem_map_of_mem (f := fun r : PfaRegion => (r.firstPage, r.nbPages)) hr
  have halign := h.geometry.aligned _ hshape (by simp only; omega)
  simp only at halign
  omega

theorem mem_framePages {p n f : ℕ} :
    f ∈ pagesIn p (p + 4096 * n) ↔ ∃ i < n, f = p + 4096 * i := by
  rw [mem_pagesIn]
  constructor
  · rintro ⟨hlo, hhi, hmod⟩
    exact ⟨(f - p) / 4096, by omega, by omega⟩
  · rintro ⟨i, hi, rfl⟩
    omega

/-- Allocations that are apart share no frame. -/
theorem not_within_of_apart {a : ℕ × ℕ} {out : List (ℕ × ℕ)} (hapart : ∀ b ∈ out, Apart a b)
    {i : ℕ} (hi : i < a.2) : ¬ Within out (a.1 + 4096 * i) := by
  rintro ⟨b, hb, j, hj, heq⟩
  have := hapart b hb
  simp only [Apart] at this
  omega

theorem within_cons {a : ℕ × ℕ} {out : List (ℕ × ℕ)} {f : ℕ} :
    Within (a :: out) f ↔ (∃ i < a.2, f = a.1 + 4096 * i) ∨ Within out f := by
  simp [Within]

theorem within_append {out out' : List (ℕ × ℕ)} {f : ℕ} :
    Within (out ++ out') f ↔ Within out f ∨ Within out' f := by
  simp [Within, or_and_right, exists_or]

theorem KernelPaging.perm {rest rest' : List (ℕ × ℕ)} (h : KernelPaging s dir rest)
    (hperm : rest.Perm rest') : KernelPaging s dir rest' :=
  ⟨h.reaches, ⟨h.inv.owned.perm ((hperm.append_left _).cons _), h.inv.self⟩, h.kernel⟩

namespace HeldFrames

theorem within_below (h : HeldFrames dir s mapped pending) {f : ℕ}
    (hf : Within (pending ++ mapped) f) : f < 0xffc00000 ∧ f % 4096 = 0 := by
  obtain ⟨a, ha, hi⟩ := hf
  obtain ⟨c, hc⟩ := h.paging.inv.owned.exists_frameIs
    (f := f) ⟨a, List.mem_cons_of_mem _ (List.mem_append_right _ ha), hi⟩
  exact frame_below h.paging.inv.owned h.below hc

/-- The frames of the allocator are apart. -/
theorem pairwise (h : HeldFrames dir s mapped pending) : (pending ++ mapped).Pairwise Apart :=
  (List.pairwise_append.mp (List.pairwise_cons.mp h.paging.inv.owned.pairwise).2).2.1

/-- A free frame belongs to nobody. -/
theorem not_within_of_free (h : HeldFrames dir s mapped pending) {f : ℕ}
    (hf : FrameIs s.pfa f .free) : ¬ Within (pending ++ mapped) f := by
  rintro ⟨a, ha, hi⟩
  exact ((h.paging.inv.owned.free_iff h.null).mp hf).2
    ⟨a, List.mem_cons_of_mem _ (List.mem_append_right _ ha), hi⟩

theorem owned (h : HeldFrames dir s mapped pending) :
    ∃ others, PfaInv s.pfa (pending ++ (mapped ++ others)) := by
  have hperm : (((dir, 1) :: tables s.mem dir) ++ (pending ++ mapped)).Perm
      (pending ++ mapped ++ (dir, 1) :: tables s.mem dir) := List.perm_append_comm
  rw [List.append_assoc pending] at hperm
  exact ⟨(dir, 1) :: tables s.mem dir, h.paging.inv.owned.perm hperm⟩

/-- A run of frames ends below the window. -/
theorem run_below (h : HeldFrames dir s mapped pending) :
    ∀ a ∈ pending ++ mapped, a.1 + 4096 * a.2 ≤ 0xffc00000 := by
  rintro ⟨p, n⟩ ha
  obtain ⟨hn, -, hmod, r, hr, hlo, hhi, -⟩ := h.paging.inv.owned.bounds
    (List.mem_cons_of_mem _ (List.mem_append_right _ ha))
  unfold PfaRegion.endAddr at hhi
  have := h.below r hr (by omega)
  simp only
  omega

/-- The pages of a run of frames are below the window, aligned and different. -/
theorem pages (h : HeldFrames dir s mapped pending) {p n : ℕ} (hmem : (p, n) ∈ pending ++ mapped) :
    p + 4096 * n ≤ 4294967296 ∧ ∀ f ∈ pagesIn p (p + 4096 * n), f < 0xffc00000 ∧ f % 4096 = 0 := by
  have hend := h.run_below _ hmem
  refine ⟨by simp only at hend; omega, fun f hf => ?_⟩
  obtain ⟨i, hi, rfl⟩ := mem_framePages.mp hf
  exact h.within_below ⟨(p, n), hmem, i, hi, rfl⟩

/-- Taking frames: they become pending, and they were free. -/
theorem alloc (h : HeldFrames dir s mapped pending) (n : ℕ) :
    ∃ p pfa, pfaAlloc s.pfa n = .ok (p, pfa) ∧
      HeldFrames dir { s with pfa := pfa } mapped (if p = badPage then pending else (p, n) :: pending) ∧
      (∀ f, FrameIs pfa f .free → FrameIs s.pfa f .free) ∧
      (p ≠ badPage → ∀ i < n, FrameIs s.pfa (p + 4096 * i) .free) := by
  obtain ⟨p, pfa, halloc, hshape, hinv⟩ := pfaAlloc_spec h.paging.inv.owned n
  have hnull : NoNullFrame pfa := forall_of_shape (P := fun p n => 0 < n → 0 < p) hshape h.null
  have hbelow := forall_of_shape (P := fun p n => 0 < n → p + 4096 * n ≤ 0xffc00000) hshape h.below
  refine ⟨p, pfa, halloc, ?_, free_of_pfaAlloc h.paging.inv.owned h.null halloc, fun hp i hi => ?_⟩
  · by_cases hp : p = badPage
    · rw [if_pos hp] at hinv ⊢
      exact ⟨h.mode, ⟨h.paging.reaches.update _ _, ⟨hinv, h.paging.inv.self⟩, h.paging.kernel⟩,
        hnull, hbelow, h.mapped⟩
    · rw [if_neg hp] at hinv ⊢
      have hperm : ((p, n) :: (dir, 1) :: (tables s.mem dir ++ (pending ++ mapped))).Perm
          ((dir, 1) :: (tables s.mem dir ++ ((p, n) :: pending ++ mapped))) :=
        (List.Perm.swap ..).trans (List.perm_middle.symm.cons _)
      exact ⟨h.mode, ⟨h.paging.reaches.update _ _, ⟨hinv.perm hperm, h.paging.inv.self⟩,
        h.paging.kernel⟩, hnull, hbelow, h.mapped⟩
  · rw [if_neg hp] at hinv
    refine (h.paging.inv.owned.free_iff h.null).mpr ⟨?_, ?_⟩
    · rw [← hshape, ← exists_frameIs_iff]
      exact hinv.exists_frameIs ⟨(p, n), List.mem_cons_self .., i, hi, rfl⟩
    · exact not_within_of_apart (List.pairwise_cons.mp hinv.pairwise).1 hi

/-- Giving pending frames back: they are the only ones that become free. -/
theorem release {p n : ℕ} (h : HeldFrames dir s mapped ((p, n) :: pending)) :
    ∃ pfa, pfaFree s.pfa p = .ok pfa ∧ HeldFrames dir { s with pfa := pfa } mapped pending ∧
      ∀ f, FrameIs pfa f .free → FrameIs s.pfa f .free ∨ ∃ i < n, f = p + 4096 * i := by
  have hperm : ((dir, 1) :: (tables s.mem dir ++ ((p, n) :: pending ++ mapped))).Perm
      ((p, n) :: (dir, 1) :: (tables s.mem dir ++ (pending ++ mapped))) :=
    (List.perm_middle.cons _).trans (List.Perm.swap ..)
  have howned := h.paging.inv.owned.perm hperm
  obtain ⟨pfa, hfree, hshape, hinv, -⟩ := pfaFree_spec howned (List.mem_cons_self ..)
  rw [List.erase_cons_head] at hinv
  have hnull : NoNullFrame pfa := forall_of_shape (P := fun p n => 0 < n → 0 < p) hshape h.null
  refine ⟨pfa, hfree, ⟨h.mode, ⟨h.paging.reaches.update _ _, ⟨hinv, h.paging.inv.self⟩,
    h.paging.kernel⟩, hnull,
    forall_of_shape (P := fun p n => 0 < n → p + 4096 * n ≤ 0xffc00000) hshape h.below, h.mapped⟩,
    fun f hf => ?_⟩
  obtain ⟨hin, hnot⟩ := (hinv.free_iff hnull).mp hf
  by_cases hthis : ∃ i < n, f = p + 4096 * i
  · exact .inr hthis
  · refine .inl ((howned.free_iff h.null).mpr ⟨hshape ▸ hin, fun hw => ?_⟩)
    rcases within_cons.mp hw with hw | hw
    · exact hthis hw
    · exact hnot hw

/-- After the entries of the pages of `(p, n)` were changed, the other pages are as before. -/
theorem remap (h : HeldFrames dir s mapped pending) {p n : ℕ} {val : ℕ → Option (ℕ × ℕ)}
    {t : Machine} (ht : Remapped s dir (pending ++ mapped)
      (fun v => if v ∈ pagesIn p (p + 4096 * n) then val v else walk s.mem dir v) t)
    {mapped' pending' : List (ℕ × ℕ)} (hperm : (pending ++ mapped).Perm (pending' ++ mapped'))
    (hmapped : ∀ f, Within mapped' f →
      if f ∈ pagesIn p (p + 4096 * n) then val f = some (f, kernelFlags) else Within mapped f) :
    HeldFrames dir t mapped' pending' := by
  have hmode : t.cr0Pg = s.cr0Pg ∧ t.cr3 = s.cr3 := by
    rw [ht.same]
    exact ⟨rfl, rfl⟩
  constructor
  case mode => exact hmode.1 ▸ hmode.2 ▸ h.mode
  case paging => exact ht.paging.perm hperm
  case null => exact forall_of_shape (P := fun p n => 0 < n → 0 < p) ht.shape_eq h.null
  case below =>
    exact forall_of_shape (P := fun p n => 0 < n → p + 4096 * n ≤ 0xffc00000) ht.shape_eq h.below
  case mapped =>
    intro f hf
    have hcase := hmapped f hf
    obtain ⟨a, ha, hi⟩ := hf
    have hmine : f < 0xffc00000 ∧ f % 4096 = 0 :=
      h.within_below ⟨a, hperm.mem_iff.mpr (List.mem_append_right _ ha), hi⟩
    rw [ht.walk_eq hmine]
    split_ifs at hcase ⊢
    · exact hcase
    · exact h.mapped f hcase

/-- The frames that are mapped after those of `(p, n)` were mapped. -/
theorem map {p n : ℕ} (h : HeldFrames dir s mapped ((p, n) :: pending)) {t : Machine}
    (ht : Remapped s dir ((p, n) :: pending ++ mapped) (fun v =>
      if v ∈ pagesIn p (p + 4096 * n) then some (v, kernelFlags) else walk s.mem dir v) t) :
    HeldFrames dir t ((p, n) :: mapped) pending := by
  refine h.remap ht List.perm_middle.symm fun f hf => ?_
  split_ifs with hpage
  · rfl
  · exact (within_cons.mp hf).resolve_left fun hw => hpage (mem_framePages.mpr hw)

/-- Frames that are mapped can be unmapped: they become pending. -/
theorem unmap {bad : Halt → Prop} {p n : ℕ} (h : HeldFrames dir s ((p, n) :: mapped) pending) :
    Run.Returns bad (unmapFrames s p n) fun t =>
      HeldFrames dir t mapped ((p, n) :: pending) ∧
        Remapped s dir (pending ++ (p, n) :: mapped) (fun v =>
          if v ∈ pagesIn p (p + 4096 * n) then none else walk s.mem dir v) t := by
  have hmem : (p, n) ∈ pending ++ (p, n) :: mapped := by simp
  obtain ⟨hend, hpages⟩ := h.pages hmem
  have hloop : unmapFrames s p n = (pagesIn p (p + 4096 * n)).foldlM unmapIdentity s :=
    foldlM_pages (f := unmapIdentity) hend
  have hmapped : ∀ f ∈ pagesIn p (p + 4096 * n), walk s.mem dir f ≠ none := by
    intro f hf
    rw [h.mapped f (within_cons.mpr (.inl (mem_framePages.mp hf)))]
    exact Option.some_ne_none _
  rw [hloop]
  refine (foldlM_remapped (fun e => e ≠ none)
    (fun t a ht _ ha halign hpre => unmapIdentity_returns ht ha halign hpre) h.paging h.null
    (fun f hf => ⟨(hpages f hf).1, (hpages f hf).2, hmapped f hf⟩)
    (nodup_pagesIn _ _)).imp fun t ht => ⟨h.remap ht List.perm_middle fun f hf => ?_, ht⟩
  rw [if_neg]
  · exact within_cons.mpr (.inr hf)
  · intro hpage
    obtain ⟨i, hi, rfl⟩ := mem_framePages.mp hpage
    have hapart := (List.pairwise_cons.mp (List.pairwise_append.mp h.pairwise).2.1).1
    exact not_within_of_apart hapart hi hf

theorem perm {mapped' : List (ℕ × ℕ)} (hperm : mapped.Perm mapped')
    (h : HeldFrames dir s mapped pending) : HeldFrames dir s mapped' pending :=
  { h with
    paging := h.paging.perm (hperm.append_left _)
    mapped := fun f ⟨a, ha, hi⟩ => h.mapped f ⟨a, hperm.mem_iff.mpr ha, hi⟩ }

/-- Frames that are neither in use nor mapped stay so when only pages in use are mapped anew. -/
theorem free_remap (h : HeldFrames dir s mapped pending) {p n : ℕ}
    (hmem : (p, n) ∈ pending ++ mapped) {val : ℕ → Option (ℕ × ℕ)} {t : Machine}
    (ht : Remapped s dir (pending ++ mapped)
      (fun v => if v ∈ pagesIn p (p + 4096 * n) then val v else walk s.mem dir v) t)
    (hfree : ∀ f, FrameIs s.pfa f .free → walk s.mem dir f = none) :
    ∀ f, FrameIs t.pfa f .free → walk t.mem dir f = none := by
  intro f hf
  have hold := ht.free f hf
  rw [ht.walk_eq (frame_below h.paging.inv.owned h.below hold), if_neg]
  · exact hfree f hold
  · intro hpage
    obtain ⟨i, hi, rfl⟩ := mem_framePages.mp hpage
    exact h.not_within_of_free hold ⟨(p, n), hmem, i, hi, rfl⟩

end HeldFrames

namespace MappedFrames

theorem held (h : MappedFrames dir s mapped pending) : HeldFrames dir s mapped pending :=
  ⟨h.mode, h.paging, h.null, h.below, h.mapped⟩

/-- What a mapped frame has beyond a held one. -/
theorem of_held (h : HeldFrames dir s mapped pending)
    (hpending : ∀ f, Within pending f → walk s.mem dir f = none)
    (hfree : ∀ f, FrameIs s.pfa f .free → walk s.mem dir f = none) :
    MappedFrames dir s mapped pending :=
  ⟨h.mode, h.paging, h.null, h.below, h.mapped, hpending, hfree⟩

/-- Taking frames: they were free, so they are not mapped. -/
theorem alloc (h : MappedFrames dir s mapped pending) (n : ℕ) :
    ∃ p pfa, pfaAlloc s.pfa n = .ok (p, pfa) ∧ MappedFrames dir { s with pfa := pfa } mapped
      (if p = badPage then pending else (p, n) :: pending) := by
  obtain ⟨p, pfa, halloc, hheld, hmono, hfresh⟩ := h.held.alloc n
  refine ⟨p, pfa, halloc, of_held hheld (fun f hf => ?_) fun f hf => h.free f (hmono f hf)⟩
  by_cases hp : p = badPage
  · rw [if_pos hp] at hf
    exact h.pending f hf
  · rw [if_neg hp] at hf
    rcases within_cons.mp hf with ⟨i, hi, rfl⟩ | hf
    · exact h.free _ (hfresh hp i hi)
    · exact h.pending f hf

/-- Giving frames back that are not mapped. -/
theorem release {p n : ℕ} (h : MappedFrames dir s mapped ((p, n) :: pending)) :
    ∃ pfa, pfaFree s.pfa p = .ok pfa ∧ MappedFrames dir { s with pfa := pfa } mapped pending := by
  obtain ⟨pfa, hfree, hheld, hnew⟩ := h.held.release
  refine ⟨pfa, hfree, of_held hheld (fun f hf => h.pending f (within_cons.mpr (.inr hf)))
    fun f hf => ?_⟩
  rcases hnew f hf with hold | hthis
  · exact h.free f hold
  · exact h.pending f (within_cons.mpr (.inl hthis))

/-- Mapping frames that are pending changes the entries of their pages. -/
theorem mapFrames_remapped {p n : ℕ} (h : MappedFrames dir s mapped ((p, n) :: pending)) :
    Run.Returns NoTable (mapFrames s p n) (Remapped s dir ((p, n) :: pending ++ mapped) fun v =>
      if v ∈ pagesIn p (p + 4096 * n) then some (v, kernelFlags) else walk s.mem dir v) := by
  have hmem : (p, n) ∈ (p, n) :: pending ++ mapped := by simp
  obtain ⟨hend, hpages⟩ := h.held.pages hmem
  have hfresh : ∀ f ∈ pagesIn p (p + 4096 * n), walk s.mem dir f = none := fun f hf =>
    h.pending f (within_cons.mpr (.inl (mem_framePages.mp hf)))
  rw [mapFrames_eq hend]
  exact foldlM_remapped (fun e => e = none)
    (fun t a ht hnull ha halign hpre => mapIdentity_returns ht hnull ha halign hpre) h.paging h.null
    (fun f hf => ⟨(hpages f hf).1, (hpages f hf).2, hfresh f hf⟩) (nodup_pagesIn _ _)

/-- Mapping frames that are pending. -/
theorem map {p n : ℕ} (h : MappedFrames dir s mapped ((p, n) :: pending)) :
    Run.Returns NoTable (mapFrames s p n) fun t => MappedFrames dir t ((p, n) :: mapped) pending := by
  have hmem : (p, n) ∈ (p, n) :: pending ++ mapped := by simp
  refine h.mapFrames_remapped.imp fun t ht => ?_
  refine of_held (h.held.map ht) (fun f hf => ?_) (h.held.free_remap hmem ht h.free)
  -- the frames that stay pending are others
  have hmine := h.held.within_below (within_append.mpr (.inl (within_cons.mpr (.inr hf))))
  rw [ht.walk_eq hmine, if_neg]
  · exact h.pending f (within_cons.mpr (.inr hf))
  · intro hpage
    obtain ⟨i, hi, rfl⟩ := mem_framePages.mp hpage
    have hapart := (List.pairwise_cons.mp h.held.pairwise).1
    exact not_within_of_apart (fun b hb => hapart b (List.mem_append_left _ hb)) hi hf

/-- Unmapping frames that are mapped. -/
theorem unmap {p n : ℕ} (h : MappedFrames dir s ((p, n) :: mapped) pending) :
    Run.Returns NoTable (unmapFrames s p n) fun t =>
      MappedFrames dir t mapped ((p, n) :: pending) := by
  have hmem : (p, n) ∈ pending ++ (p, n) :: mapped := by simp
  refine h.held.unmap.imp fun t ht => ?_
  refine of_held ht.1 (fun f hf => ?_) (h.held.free_remap hmem ht.2 h.free)
  have hmine := ht.1.within_below (within_append.mpr (.inl hf))
  rw [ht.2.walk_eq hmine]
  split_ifs with hpage
  · rfl
  · exact h.pending f ((within_cons.mp hf).resolve_left fun hw => hpage (mem_framePages.mpr hw))

end MappedFrames

/-- The frames of the allocator stay mapped, and nothing else can go wrong than the lack of a
frame for a page table. -/
theorem mappedFrames_keeper (dir : ℕ) : FrameKeeper NoTable (MappedFrames dir) where
  owned h := h.held.owned
  alloc h n := h.alloc n
  map h := h.map
  unmap h := h.unmap
  free h := h.release
  perm hperm h := .of_held (h.held.perm hperm) h.pending h.free

end Frames

/-- After `paging_setup` the allocator holds nothing, and the bootstrap pages are mapped. -/
theorem heldFrames_start {env : BootRanges} {s₀ s : Machine} (henv : env.Below)
    (hready : PfaStart s₀.pfa)
    (hbelow : ∀ r ∈ s₀.pfa, 0 < r.nbPages → r.firstPage + 4096 * r.nbPages ≤ 0xffc00000)
    (hflag : s₀.pagingEnabled = false) (hpg : s₀.cr0Pg = false)
    (hsetup : pagingSetup env s₀ = .ok s) :
    HeldFrames s.cr3 s [] [] ∧ Represents s.mem s.cr3 (bootMap env) := by
  have hinv := pfaInv_of_free hready.geometry hready.free
  obtain ⟨-, ⟨t, ht⟩, hshape, hpaging, hboot⟩ := pagingSetup_spec henv hinv hflag hpg hsetup
  have hhigh := forall_of_shape (P := fun p n => 0 < n → 0x100000 ≤ p) hshape hready.high
  have hbelow' := forall_of_shape (P := fun p n => 0 < n → p + 4096 * n ≤ 0xffc00000) hshape hbelow
  refine ⟨⟨⟨by rw [ht]; rfl, rfl⟩, hpaging, fun r hr hpos => ?_, hbelow', by simp [Within]⟩, hboot⟩
  have := hhigh r hr hpos
  omega

/-! ## Ownership over whole runs -/

/-- Who owns which frame after a run. -/
structure HeapRun.Owned (r : HeapRun) (dir : ℕ) : Prop where
  mode : r.heap.machine.cr0Pg = true ∧ r.heap.machine.cr3 = dir
  /-- The directory, the tables, the blocks and the big allocations share no frame. -/
  disjoint : (ownedFrames r.heap.machine dir
    (r.heap.blockFrames ++ r.heap.bigFrames)).Pairwise Apart
  /-- The frames in use are theirs. -/
  used : ∀ f, (∃ c, c ≠ .free ∧ FrameIs r.heap.machine.pfa f c) ↔
    Within (ownedFrames r.heap.machine dir (r.heap.blockFrames ++ r.heap.bigFrames)) f
  free : ∀ f, FrameIs r.heap.machine.pfa f .free → translate r.heap.machine.mem dir f = none
  mapped : ∀ f, Within (r.heap.blockFrames ++ r.heap.bigFrames) f →
    translate r.heap.machine.mem dir f = some f

theorem HeapInv.owned {r : HeapRun} {dir : ℕ}
    (h : HeapInv (MappedFrames dir) r.heap r.areas []) : r.Owned dir := by
  have hf := h.frames
  constructor
  case mode => exact hf.mode
  case disjoint => exact hf.paging.inv.owned.pairwise
  case used =>
    intro f
    constructor
    · rintro ⟨c, hc, hfc⟩
      exact (hf.paging.inv.owned.within_iff hf.null hfc).mp hc
    · intro hw
      obtain ⟨c, hc⟩ := hf.paging.inv.owned.exists_frameIs hw
      exact ⟨c, (hf.paging.inv.owned.within_iff hf.null hc).mpr hw, hc⟩
  case free =>
    intro f hfree
    rw [translate_eq_walk, hf.free f hfree, Option.map_none]
  case mapped =>
    intro f hw
    have hmod := (hf.held.within_below hw).2
    rw [translate_eq_walk, hf.mapped f hw, Option.map_some, pageOffset_eq, hmod]
    rfl

/-- **Frame ownership over whole runs.** After `paging_setup`, at every point of a run of `kmalloc`
and `kfree`, the frames in use are the disjoint union of the frames of the directory, of the
tables, of the blocks and of the big allocations; free frames are not mapped, and the frames of
blocks and big allocations are mapped to themselves. The only panic is the lack of a frame for a
page table. -/
theorem kmalloc_run_ownership {env : BootRanges} {s₀ s : Machine} (henv : env.Below)
    (hready : PfaStart s₀.pfa)
    (hbelow : ∀ r ∈ s₀.pfa, 0 < r.nbPages → r.firstPage + 4096 * r.nbPages ≤ 0xffc00000)
    (hflag : s₀.pagingEnabled = false) (hpg : s₀.cr0Pg = false)
    (hsetup : pagingSetup env s₀ = .ok s)
    (hfree : ∀ f, FrameIs s.pfa f .free → translate s.mem s.cr3 f ≠ some f) {ops : List HeapOp}
    (hops : ∀ op ∈ ops, op.Bounded) :
    (∀ r, Run.run HeapRun.step (.start s) ops = .ok r → r.Owned s.cr3) ∧
    ∀ e, Run.run HeapRun.step (.start s) ops = .error e →
      e = .panic "failed to create new page table" := by
  obtain ⟨hheld, hboot⟩ := heldFrames_start henv hready hbelow hflag hpg hsetup
  have hstart : MappedFrames s.cr3 s [] [] := by
    refine .of_held hheld (by simp [Within]) fun f hf => ?_
    -- only the bootstrap pages are mapped, and they are mapped to themselves
    obtain ⟨hlt, hmod⟩ := frame_below hheld.paging.inv.owned hheld.below hf
    have hwalk := hboot f hlt hmod
    have hne := hfree f hf
    rw [translate_eq_walk, hwalk, bootMap] at hne
    rw [hwalk, bootMap]
    split_ifs at hne ⊢
    · simp [hmod] at hne
    · rfl
  obtain ⟨hok, herror⟩ := HeapRun.run_spec (s := .start s) (mappedFrames_keeper s.cr3) hops
    ⟨hstart, by simp [HeapRun.start], by simp [HeapRun.start], List.Perm.nil⟩
  exact ⟨fun r hr => (hok r hr).owned, herror⟩

/-- A machine before paging, with six free frames at 2 MB. -/
def roomyMachine : Machine := { smallMachine with pfa := [⟨0x200000, List.replicate 6 .free⟩] }

theorem pfaStart_roomyMachine : PfaStart roomyMachine.pfa := by
  refine ⟨by simp [roomyMachine], by simp [roomyMachine], ?_, ?_, ?_⟩
  · simp [shape, roomyMachine]
  · simp [shape, roomyMachine, PfaRegion.nbPages]
  · simp [shape, roomyMachine]

theorem roomyMachine_below :
    ∀ r ∈ roomyMachine.pfa, 0 < r.nbPages → r.firstPage + 4096 * r.nbPages ≤ 0xffc00000 := by
  simp [roomyMachine, PfaRegion.nbPages]

/-- The block of this machine, with the chunk of a caller and that of the metadata. -/
def roomyBlock : AhaBlock where
  addr := 0x202000
  eltSize := 16
  totElts := 239
  nbFrees := 237
  firstPtr := 0x202108
  chunkmap := .used :: .used :: List.replicate 237 .free

/-- A small and a big allocation: the directory, the table, the block and the two frames of the big
one leave one frame. -/
theorem roomyMachine_run :
    ∃ s r, pagingSetup smallBoot roomyMachine = .ok s ∧
      Run.run HeapRun.step (.start s) [.kmalloc 10, .kmalloc 5000] = .ok r ∧
      r.outstanding = [(0x203000, 5000), (0x202108, 10)] ∧
      r.heap.ahaBlockList = [roomyBlock] ∧
      r.heap.ahaBigList = [⟨0x202118, 8192, 0x203000⟩] := by
  obtain ⟨r, hrun, hr⟩ := Run.exists_of_map (f := fun r : Machine × HeapRun =>
      (r.2.outstanding, r.2.heap.ahaBlockList, r.2.heap.ahaBigList))
    (x := pagingSetup smallBoot roomyMachine >>= fun s =>
      Run.run HeapRun.step (.start s) [.kmalloc 10, .kmalloc 5000] >>= fun r => .ok (s, r))
    (b := ([(0x203000, 5000), (0x202108, 10)], [roomyBlock], [⟨0x202118, 8192, 0x203000⟩]))
    (by decide +kernel)
  obtain ⟨s, hs, hrun⟩ := Run.bind_eq_ok.mp hrun
  obtain ⟨r', hr', hrun⟩ := Run.bind_eq_ok.mp hrun
  obtain rfl := Except.ok.inj hrun
  simp only [Prod.mk.injEq] at hr
  exact ⟨s, r', hs, hr', hr.1, hr.2.1, hr.2.2⟩

/-- The machine with six frames at 2 MB: its bootstrap pages are below, so no free frame is mapped,
and the run that takes a small and a big allocation ends with every frame owned by one. -/
theorem kmalloc_run_ownership_small :
    ∃ s r, pagingSetup smallBoot roomyMachine = .ok s ∧
      Run.run HeapRun.step (.start s) [.kmalloc 10, .kmalloc 5000] = .ok r ∧
      r.outstanding = [(0x203000, 5000), (0x202108, 10)] ∧ r.Owned s.cr3 := by
  obtain ⟨s, r, hs, hrun, hout, -⟩ := roomyMachine_run
  have hready := pfaStart_roomyMachine
  obtain ⟨-, -, hshape, hpaging, hboot⟩ := pagingSetup_spec smallBoot_below
    (pfaInv_of_free hready.geometry hready.free) rfl rfl hs
  have hfree : ∀ f, FrameIs s.pfa f .free → translate s.mem s.cr3 f ≠ some f := by
    intro f hf
    obtain ⟨r, hr, k, hk, rfl⟩ := exists_frameIs_iff.mp ⟨_, hf⟩
    rw [hshape] at hr
    obtain rfl : r = (0x200000, 6) := by simpa [shape, roomyMachine, PfaRegion.nbPages] using hr
    have hpage : 0x200000 + 4096 * k ∉ bootPages smallBoot := by
      have : ∀ a ∈ bootPages smallBoot, a < 0x200000 := by decide +kernel
      intro hmem
      have := this _ hmem
      omega
    simp only at hk ⊢
    rw [translate_eq_walk, hboot _ (by omega) (by omega), bootMap, if_neg hpage]
    simp
  exact ⟨s, r, hs, hrun, hout, (kmalloc_run_ownership smallBoot_below hready roomyMachine_below
    rfl rfl hs hfree (by simp [HeapOp.Bounded])).1 r hrun⟩

end Ahos
