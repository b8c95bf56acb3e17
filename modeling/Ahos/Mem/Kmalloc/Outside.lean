import Ahos.Mem.Kmalloc.Ownership
import Ahos.Mem.Pfa.Boundary

/-!
# The pages that the allocator does not own

`kmalloc` and `kfree` map and unmap page frames that they have taken. So a page that is no
page frame of the allocator keeps its entry through every run: the kernel, the video memory
and what else was mapped at boot stay where they are.
-/

namespace Ahos

/-! ## Pages that stay as they are -/

/-- The page `v` is no frame of the regions. -/
def NoFrame (regions : List (ℕ × ℕ)) (v : ℕ) : Prop :=
  ∀ r ∈ regions, ∀ k < r.2, v ≠ r.1 + 4096 * k

theorem noFrame_shape {pfa : PfaMeta} {v : ℕ} :
    NoFrame (shape pfa) v ↔ ¬ ∃ c, FrameIs pfa v c := by
  rw [exists_frameIs_iff]
  simp [NoFrame]

/-- The frames of the allocator as in `MappedFrames`, for an allocator with these regions; the
pages that are no frames are mapped as `m` says. -/
structure KeptFrames (dir : ℕ) (regions : List (ℕ × ℕ)) (m : ℕ → Option (ℕ × ℕ)) (s : Machine)
    (mapped pending : List (ℕ × ℕ)) : Prop where
  frames : MappedFrames dir s mapped pending
  shape_eq : shape s.pfa = regions
  outside : ∀ v < 0xffc00000, v % 4096 = 0 → NoFrame regions v → walk s.mem dir v = m v

namespace KeptFrames

variable {dir : ℕ} {regions : List (ℕ × ℕ)} {m : ℕ → Option (ℕ × ℕ)} {s : Machine}
  {mapped pending : List (ℕ × ℕ)}

/-- A frame of the allocator is a frame of the regions. -/
theorem not_noFrame (h : KeptFrames dir regions m s mapped pending) {f : ℕ}
    (hf : Within (pending ++ mapped) f) : ¬ NoFrame regions f := by
  obtain ⟨a, ha, hi⟩ := hf
  obtain ⟨c, hc⟩ := h.frames.paging.inv.owned.exists_frameIs
    ⟨a, List.mem_cons_of_mem _ (List.mem_append_right _ ha), hi⟩
  rw [← h.shape_eq, noFrame_shape, not_not]
  exact ⟨c, hc⟩

/-- Changing the entries of a run of frames changes no page that is no frame. -/
theorem remap (h : KeptFrames dir regions m s mapped pending) {p n : ℕ}
    (hmem : (p, n) ∈ pending ++ mapped) {val : ℕ → Option (ℕ × ℕ)} {rest : List (ℕ × ℕ)}
    {t : Machine} (ht : Remapped s dir rest
      (fun v => if v ∈ pagesIn p (p + 4096 * n) then val v else walk s.mem dir v) t)
    {mapped' pending' : List (ℕ × ℕ)} (hframes : MappedFrames dir t mapped' pending') :
    KeptFrames dir regions m t mapped' pending' := by
  refine ⟨hframes, ht.shape_eq.trans h.shape_eq, fun v hv hva hno => ?_⟩
  rw [ht.walk_eq ⟨hv, hva⟩, if_neg]
  · exact h.outside v hv hva hno
  · intro hpage
    obtain ⟨i, hi, rfl⟩ := mem_framePages.mp hpage
    exact h.not_noFrame ⟨_, hmem, i, hi, rfl⟩ hno

theorem alloc (h : KeptFrames dir regions m s mapped pending) (n : ℕ) :
    ∃ p pfa, pfaAlloc s.pfa n = .ok (p, pfa) ∧ KeptFrames dir regions m { s with pfa := pfa }
      mapped (if p = badPage then pending else (p, n) :: pending) := by
  obtain ⟨p, pfa, halloc, hframes⟩ := h.frames.alloc n
  obtain ⟨hshape, -⟩ := h.frames.paging.inv.owned.of_alloc halloc
  exact ⟨p, pfa, halloc, hframes, hshape.trans h.shape_eq, h.outside⟩

theorem release {p n : ℕ} (h : KeptFrames dir regions m s mapped ((p, n) :: pending)) :
    ∃ pfa, pfaFree s.pfa p = .ok pfa ∧
      KeptFrames dir regions m { s with pfa := pfa } mapped pending := by
  obtain ⟨pfa, hfree, hframes⟩ := h.frames.release
  exact ⟨pfa, hfree, hframes, (shape_pfaFree hfree).trans h.shape_eq, h.outside⟩

theorem map {p n : ℕ} (h : KeptFrames dir regions m s mapped ((p, n) :: pending)) :
    Run.Returns NoTable (mapFrames s p n)
      fun t => KeptFrames dir regions m t ((p, n) :: mapped) pending := by
  have hmem : (p, n) ∈ (p, n) :: pending ++ mapped := by simp
  exact (h.frames.map.and h.frames.mapFrames_remapped).imp fun t ht => h.remap hmem ht.2 ht.1

theorem unmap {p n : ℕ} (h : KeptFrames dir regions m s ((p, n) :: mapped) pending) :
    Run.Returns NoTable (unmapFrames s p n)
      fun t => KeptFrames dir regions m t mapped ((p, n) :: pending) := by
  have hmem : (p, n) ∈ pending ++ (p, n) :: mapped := by simp
  exact (h.frames.unmap.and h.frames.held.unmap).imp fun t ht => h.remap hmem ht.2.2 ht.1

end KeptFrames

/-- The frames of the allocator stay mapped, and the other pages stay as they are. -/
theorem keptFrames_keeper (dir : ℕ) (regions : List (ℕ × ℕ)) (m : ℕ → Option (ℕ × ℕ)) :
    FrameKeeper NoTable (KeptFrames dir regions m) where
  owned h := h.frames.held.owned
  alloc h n := h.alloc n
  map h := h.map
  unmap h := h.unmap
  free h := h.release
  perm hperm h := ⟨(mappedFrames_keeper dir).perm hperm h.frames, h.shape_eq, h.outside⟩

/-! ## The areas of the heap -/

/-- No area in use is empty. -/
theorem HeapInv.area_pos {frames : Machine → List (ℕ × ℕ) → List (ℕ × ℕ) → Prop} {h : Heap}
    {out pending : List (ℕ × ℕ)} (hinv : HeapInv frames h out pending) {a : ℕ × ℕ}
    (ha : a ∈ h.usedAreas ++ h.bigAreas) : 0 < a.2 := by
  rcases List.mem_append.mp ha with ha | ha
  · obtain ⟨b, hb, ha⟩ := List.mem_flatMap.mp ha
    obtain ⟨i, -, -, rfl⟩ := mem_usedAreas.mp ha
    have := (hinv.blocks b hb).size.bounds
    simp only [AhaBlock.chunkArea]
    omega
  · obtain ⟨m, hm, rfl⟩ := List.mem_map.mp ha
    have := (hinv.bigs m hm).bounds
    simp only
    omega

/-- Every byte of an area in use lies on a frame that is mapped for the allocator. -/
theorem HeapInv.byte_within {bad : Halt → Prop}
    {frames : Machine → List (ℕ × ℕ) → List (ℕ × ℕ) → Prop} {h : Heap} {out pending : List (ℕ × ℕ)}
    (hk : FrameKeeper bad frames) (hinv : HeapInv frames h out pending) {a : ℕ × ℕ}
    (ha : a ∈ h.usedAreas ++ h.bigAreas) {x : ℕ} (hlo : a.1 ≤ x) (hhi : x < a.1 + a.2) :
    Within (h.blockFrames ++ h.bigFrames) (4096 * (x / 4096)) := by
  rcases List.mem_append.mp ha with ha | ha
  · obtain ⟨b, hb, ha⟩ := List.mem_flatMap.mp ha
    have hin := hinv.used_inside hb ha
    have halign := (hinv.blocks b hb).align
    refine ⟨(b.addr, 1), List.mem_append_left _ ?_, 0, by omega, by simp only; omega⟩
    exact List.mem_map_of_mem (f := fun b : AhaBlock => (b.addr, 1)) hb
  · obtain ⟨m, hm, rfl⟩ := List.mem_map.mp ha
    have hframe : (m.ptr, m.size / 4096) ∈ h.blockFrames ++ h.bigFrames :=
      List.mem_append_right _
        (List.mem_map_of_mem (f := fun m : AhaBigMeta => (m.ptr, m.size / 4096)) hm)
    obtain ⟨others, howned⟩ := hk.owned hinv.frames
    obtain ⟨-, -, hmod, -⟩ := howned.bounds (p := m.ptr) (n := m.size / 4096)
      (List.mem_append_right _ (List.mem_append_left _ hframe))
    have hsize := (hinv.bigs m hm).bounds
    simp only at hlo hhi
    exact ⟨_, hframe, (x - m.ptr) / 4096, by simp only; omega, by simp only; omega⟩

end Ahos
