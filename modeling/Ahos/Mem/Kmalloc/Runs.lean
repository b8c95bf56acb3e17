import Ahos.Mem.Kmalloc.Heap
import Ahos.Mem.Paging.Phys

/-!
# Runs of `kmalloc` and `kfree`

A run is a list of calls of `kmalloc` and of `kfree` on outstanding pointers. Whatever the
page tables contain, the allocator keeps the invariant of its heap as long as the page frame
allocator keeps its own: outstanding allocations are chunks of the right size or whole page
frames, they do not overlap each other or the metadata, and the free counters are right.
-/

namespace Ahos

/-- A call of the allocator. Pointers are released by their position among the outstanding
ones. -/
inductive HeapOp where
  | kmalloc (size : ℕ)
  | kfree (i : ℕ)
deriving DecidableEq, Repr

/-- The heap together with the pointers that its callers hold, each with the size requested. -/
structure HeapRun where
  heap : Heap
  outstanding : List (ℕ × ℕ)

namespace HeapRun

/-- One call: a result other than `NULL` becomes outstanding, a released pointer is not
outstanding any more. -/
def step (s : HeapRun) : HeapOp → Outcome HeapRun
  | .kmalloc size => do
    let (p, heap) ← kmalloc s.heap size
    return ⟨heap, if p = 0 then s.outstanding else (p, size) :: s.outstanding⟩
  | .kfree i =>
    match s.outstanding[i]? with
    | none => .ok s
    | some a => do
      let heap ← kfree s.heap a.1
      return ⟨heap, s.outstanding.eraseIdx i⟩

/-- The areas of the outstanding pointers. -/
def areas (s : HeapRun) : List (ℕ × ℕ) := s.outstanding.map fun a => (a.1, allocSize a.2)

end HeapRun

/-- The size of a request is at most `2 ^ 31`. -/
def HeapOp.Bounded : HeapOp → Prop
  | .kmalloc size => size ≤ 2 ^ 31
  | .kfree _ => True

section Runs

variable {bad : Halt → Prop} {frames : Machine → List (ℕ × ℕ) → List (ℕ × ℕ) → Prop}

/-- Every call keeps the heap. -/
theorem HeapRun.step_spec (hk : FrameKeeper bad frames) {s : HeapRun} {op : HeapOp}
    (hop : op.Bounded) (hs : HeapInv frames s.heap s.areas []) :
    Run.Returns bad (s.step op) fun t => HeapInv frames t.heap t.areas [] := by
  cases op with
  | kmalloc size =>
    refine (kmalloc_spec hk hs hop).bind ?_
    rintro ⟨p, heap⟩ hheap
    refine Run.returns_ok ?_
    by_cases hp : p = 0
    · simpa [hp, HeapRun.areas] using hheap
    · simpa [hp, HeapRun.areas] using hheap
  | kfree i =>
    simp only [HeapRun.step]
    cases hget : s.outstanding[i]? with
    | none => exact Run.returns_ok hs
    | some a =>
      obtain ⟨hi, rfl⟩ := List.getElem?_eq_some_iff.mp hget
      have hperm := (List.getElem_cons_eraseIdx_perm hi).symm.map
        fun a : ℕ × ℕ => (a.1, allocSize a.2)
      have hinv : HeapInv frames s.heap ((s.outstanding[i].1, allocSize s.outstanding[i].2) ::
          (s.outstanding.eraseIdx i).map fun a => (a.1, allocSize a.2)) [] :=
        ⟨hs.frames, hs.blocks, hs.bigs, hs.areas.trans (hperm.append_left _)⟩
      exact (kfree_spec hk hinv).bind fun heap hheap => Run.returns_ok hheap

/-- **Every run keeps the heap**, and it ends early only with an error of the page tables. -/
theorem HeapRun.run_spec (hk : FrameKeeper bad frames) {s : HeapRun} {ops : List HeapOp}
    (hops : ∀ op ∈ ops, op.Bounded) (hs : HeapInv frames s.heap s.areas []) :
    Run.Returns bad (Run.run HeapRun.step s ops) fun t => HeapInv frames t.heap t.areas [] :=
  Run.returns_run (fun _ op hop ht => HeapRun.step_spec hk (hops op hop) ht) hs

end Runs

/-! ## The layout of the heap -/

section Layout

variable {bad : Halt → Prop} {frames : Machine → List (ℕ × ℕ) → List (ℕ × ℕ) → Prop}
  {h : Heap} {out pending : List (ℕ × ℕ)}

/-- A chunk in use lies inside the page of its block, behind the chunkmap. -/
theorem HeapInv.used_inside (hinv : HeapInv frames h out pending) {b : AhaBlock}
    (hb : b ∈ h.ahaBlockList) {a : ℕ × ℕ} (ha : a ∈ b.usedAreas) :
    b.addr + 24 + b.totElts ≤ a.1 ∧ a.1 + a.2 ≤ b.addr + 4096 := by
  obtain ⟨i, hi, -, rfl⟩ := mem_usedAreas.mp ha
  exact (hinv.blocks b hb).chunk_inside hi

theorem AreasApart.symm {a b : ℕ × ℕ} (h : AreasApart a b) : AreasApart b a := Or.symm h

/-- The areas in use do not overlap. -/
theorem HeapInv.pairwise_areas (hk : FrameKeeper bad frames)
    (hinv : HeapInv frames h out pending) : (h.usedAreas ++ h.bigAreas).Pairwise AreasApart := by
  obtain ⟨hblocks, hbigs, hcross⟩ := List.pairwise_append.mp (hinv.pairwise hk)
  refine List.pairwise_append.mpr ⟨?_, ?_, ?_⟩
  · rw [Heap.usedAreas, List.pairwise_flatMap]
    refine ⟨fun b _ => pairwise_usedAreas b, ?_⟩
    rw [Heap.blockFrames, List.pairwise_map] at hblocks
    refine (List.Pairwise.and_mem.mp hblocks).imp ?_
    rintro b b' ⟨hb, hb', hapart⟩ a ha a' ha'
    have hin := hinv.used_inside hb ha
    have hin' := hinv.used_inside hb' ha'
    simp only [Apart] at hapart
    unfold AreasApart
    omega
  · rw [Heap.bigAreas, List.pairwise_map]
    rw [Heap.bigFrames, List.pairwise_map] at hbigs
    refine (List.Pairwise.and_mem.mp hbigs).imp ?_
    rintro m m' ⟨hm, hm', hapart⟩
    have hsize := (hinv.bigs m hm).bounds
    have hsize' := (hinv.bigs m' hm').bounds
    simp only [Apart] at hapart
    simp only [AreasApart]
    omega
  · intro a ha a' ha'
    obtain ⟨b, hb, ha⟩ := List.mem_flatMap.mp ha
    obtain ⟨m, hm, rfl⟩ := List.mem_map.mp ha'
    have hapart := hcross _ (List.mem_map_of_mem (f := fun b : AhaBlock => (b.addr, 1)) hb)
      _ (List.mem_map_of_mem (f := fun m : AhaBigMeta => (m.ptr, m.size / 4096)) hm)
    have hin := hinv.used_inside hb ha
    have hsize := (hinv.bigs m hm).bounds
    simp only [Apart] at hapart
    simp only [AreasApart]
    omega

/-- The areas in use do not overlap the header or the chunkmap of a block. -/
theorem HeapInv.header_apart (hk : FrameKeeper bad frames)
    (hinv : HeapInv frames h out pending) {b : AhaBlock} (hb : b ∈ h.ahaBlockList) {a : ℕ × ℕ}
    (ha : a ∈ h.usedAreas ++ h.bigAreas) : AreasApart a (b.addr, 24 + b.totElts) := by
  obtain ⟨hblocks, -, hcross⟩ := List.pairwise_append.mp (hinv.pairwise hk)
  have hlayout := (hinv.blocks b hb).layout
  rcases List.mem_append.mp ha with ha | ha
  · obtain ⟨b', hb', ha⟩ := List.mem_flatMap.mp ha
    have hin := hinv.used_inside hb' ha
    by_cases heq : b' = b
    · subst heq
      simp only [AreasApart]
      omega
    · rw [Heap.blockFrames, List.pairwise_map] at hblocks
      have hsymm : Std.Symm fun b b' : AhaBlock => Apart (b.addr, 1) (b'.addr, 1) :=
        ⟨fun _ _ h => Or.symm h⟩
      have hapart := hblocks.forall hb' hb heq
      simp only [Apart] at hapart
      simp only [AreasApart]
      omega
  · obtain ⟨m, hm, rfl⟩ := List.mem_map.mp ha
    have hapart := hcross _ (List.mem_map_of_mem (f := fun b : AhaBlock => (b.addr, 1)) hb)
      _ (List.mem_map_of_mem (f := fun m : AhaBigMeta => (m.ptr, m.size / 4096)) hm)
    have hsize := (hinv.bigs m hm).bounds
    simp only [Apart] at hapart
    simp only [AreasApart]
    omega

end Layout

/-- What holds of the outstanding allocations at every point of a run. -/
structure HeapRun.Sound (s : HeapRun) : Prop where
  /-- A small allocation is a used chunk of its block. -/
  small : ∀ a ∈ s.outstanding, allocSize a.2 < 4096 → ∃ b ∈ s.heap.ahaBlockList,
    ∃ i < b.totElts, b.chunkmap[i]? = some .used ∧ b.eltSize = allocSize a.2 ∧
      a.1 = b.firstPtr + b.eltSize * i ∧ b.addr % 4096 = 0 ∧ b.addr + 24 + b.totElts ≤ a.1 ∧
      a.1 + allocSize a.2 ≤ b.addr + 4096 ∧ a.1 % 4 = 0
  /-- A big allocation is a run of whole page frames that are taken for it. -/
  big : ∀ a ∈ s.outstanding, 4096 ≤ allocSize a.2 → ∃ m ∈ s.heap.ahaBigList, m.ptr = a.1 ∧
    m.size = allocSize a.2 ∧ a.1 % 4096 = 0 ∧ allocSize a.2 = 4096 * (allocSize a.2 / 4096) ∧
      ∃ out, PfaInv s.heap.machine.pfa ((a.1, allocSize a.2 / 4096) :: out)
  disjoint : (s.heap.metaAreas ++ s.areas).Pairwise AreasApart
  headers : ∀ b ∈ s.heap.ahaBlockList, ∀ a ∈ s.heap.metaAreas ++ s.areas,
    AreasApart a (b.addr, 24 + b.totElts)
  /-- The free counter of a block counts the free cells of its chunkmap. -/
  frees : ∀ b ∈ s.heap.ahaBlockList,
    b.chunkmap.length = b.totElts ∧ b.nbFrees = b.chunkmap.count .free

theorem HeapInv.sound {bad : Halt → Prop}
    {frames : Machine → List (ℕ × ℕ) → List (ℕ × ℕ) → Prop} {s : HeapRun}
    (hk : FrameKeeper bad frames) (hinv : HeapInv frames s.heap s.areas []) : s.Sound := by
  have hmem : ∀ a ∈ s.outstanding,
      (a.1, allocSize a.2) ∈ s.heap.usedAreas ++ s.heap.bigAreas := fun a ha =>
    hinv.areas.mem_iff.mpr (List.mem_append_right _
      (List.mem_map_of_mem (f := fun a : ℕ × ℕ => (a.1, allocSize a.2)) ha))
  constructor
  case small =>
    intro a ha hlt
    rcases List.mem_append.mp (hmem a ha) with hused | hbig
    · obtain ⟨b, hb, hchunk⟩ := List.mem_flatMap.mp hused
      obtain ⟨hlo, hhi⟩ := hinv.used_inside hb hchunk
      obtain ⟨i, hi, hcell, harea⟩ := mem_usedAreas.mp hchunk
      obtain ⟨haddr, hsize⟩ := Prod.mk.inj harea
      obtain ⟨-, halign, -⟩ := (hinv.blocks b hb).layout
      have hmul : b.eltSize * i % 4 = 0 := by
        rw [Nat.mul_mod, (hinv.blocks b hb).size.mod_four, Nat.zero_mul, Nat.zero_mod]
      exact ⟨b, hb, i, hi, hcell, hsize, haddr.symm, (hinv.blocks b hb).align, hlo, hhi, by omega⟩
    · obtain ⟨m, hm, harea⟩ := List.mem_map.mp hbig
      have := (hinv.bigs m hm).bounds.1
      have := (Prod.mk.inj harea).2
      omega
  case big =>
    intro a ha hle
    rcases List.mem_append.mp (hmem a ha) with hused | hbig
    · obtain ⟨b, hb, hchunk⟩ := List.mem_flatMap.mp hused
      obtain ⟨i, hi, hcell, harea⟩ := mem_usedAreas.mp hchunk
      have := (hinv.blocks b hb).size.bounds
      have := (Prod.mk.inj harea).2
      omega
    · obtain ⟨m, hm, harea⟩ := List.mem_map.mp hbig
      obtain ⟨haddr, hsize⟩ := Prod.mk.inj harea
      have hframe : (a.1, allocSize a.2 / 4096) ∈ s.heap.bigFrames := by
        rw [← haddr, ← hsize]
        exact List.mem_map_of_mem (f := fun m : AhaBigMeta => (m.ptr, m.size / 4096)) hm
      obtain ⟨others, howned⟩ := hk.owned hinv.frames
      have hin : (a.1, allocSize a.2 / 4096) ∈
          [] ++ (s.heap.blockFrames ++ s.heap.bigFrames ++ others) := by simp [hframe]
      exact ⟨m, hm, haddr, hsize, (howned.bounds hin).2.2.1, hsize ▸ (hinv.bigs m hm).bounds.2.2,
        _, howned.perm (List.perm_cons_erase hin)⟩
  case disjoint =>
    exact hinv.areas.pairwise (hinv.pairwise_areas hk) fun h => h.symm
  case headers =>
    intro b hb a ha
    exact hinv.header_apart hk hb (hinv.areas.mem_iff.mpr ha)
  case frees => exact fun b hb => ⟨(hinv.blocks b hb).chunks, (hinv.blocks b hb).frees⟩

/-! ## Frames under arbitrary page tables -/

/-- The frames `mine` are taken from the page frame allocator. -/
def Owns (s : Machine) (mine : List (ℕ × ℕ)) : Prop :=
  ∃ others, PfaInv s.pfa (mine ++ others)

/-- The panics of `kmalloc` that report a broken heap. -/
def brokenHeap : List String :=
  ["found block does not have any free chunk!", "block cannot even hold a single element"]

/-- An error that is not the report of a broken heap. -/
def HeapIntact (e : Halt) : Prop := ∀ msg ∈ brokenHeap, e ≠ .panic msg

section Owns

variable {s : Machine} {mine : List (ℕ × ℕ)}

/-- A call of the page frame allocator keeps the frames. -/
theorem Owns.alloc (h : Owns s mine) (n : ℕ) :
    ∃ p pfa, pfaAlloc s.pfa n = .ok (p, pfa) ∧
      Owns { s with pfa := pfa } (if p = badPage then mine else (p, n) :: mine) := by
  obtain ⟨others, hinv⟩ := h
  obtain ⟨p, pfa, halloc, -, hinv'⟩ := pfaAlloc_spec hinv n
  refine ⟨p, pfa, halloc, others, ?_⟩
  split_ifs at hinv' ⊢
  · exact hinv'
  · exact hinv'

theorem load_returns (s : Machine) (addr : ℕ) :
    Run.Returns HeapIntact (s.load addr) fun _ => True := by
  refine ⟨fun _ _ => trivial, fun e he => ?_⟩
  unfold Machine.load Machine.resolve at he
  split at he
  · cases htr : translate s.mem s.cr3 addr with
    | none =>
      rw [htr] at he
      obtain rfl := Except.error.inj he
      intro msg _
      simp
    | some phys =>
      rw [htr] at he
      cases he
  · cases he

/-- A store does not touch the page frame allocator. -/
theorem store_returns (s : Machine) (addr word : ℕ) :
    Run.Returns HeapIntact (s.store addr word) fun t => t.pfa = s.pfa := by
  unfold Machine.store Machine.resolve
  split
  · cases htr : translate s.mem s.cr3 addr with
    | none =>
      refine ⟨(fun _ h => by cases h), fun e he => ?_⟩
      obtain rfl := Except.error.inj he
      intro msg _
      simp
    | some phys => exact Run.returns_ok rfl
  · exact Run.returns_ok rfl

theorem heapIntact_panic {msg : String} (h : msg ∉ brokenHeap) : HeapIntact (.panic msg) := by
  rintro msg' hmsg' heq
  obtain rfl := Halt.panic.inj heq
  exact h hmsg'

theorem panic_returns {α : Type} {msg : String} {post : α → Prop} (h : msg ∉ brokenHeap) :
    Run.Returns HeapIntact (panic msg : Outcome α) post := by
  refine ⟨(fun _ h => by cases h), fun e he => ?_⟩
  obtain rfl := Except.error.inj he
  exact heapIntact_panic h

/-! ### Properties of the page frame allocator -/

section Keeps

variable {P : PfaMeta → Prop}
  (hP : ∀ {pfa : PfaMeta}, P pfa → ∀ n, ∃ p pfa', pfaAlloc pfa n = .ok (p, pfa') ∧ P pfa')

theorem store_keeps (h : P s.pfa) (addr word : ℕ) :
    Run.Returns HeapIntact (s.store addr word) fun t => P t.pfa :=
  (store_returns s addr word).imp fun t ht => by
    rw [ht]
    exact h

theorem fill_keeps (h : P s.pfa) (table word : ℕ) (is : List ℕ) :
    Run.Returns HeapIntact (is.foldlM (fun s i => s.store (table + 4 * i) word) s)
      fun t => P t.pfa :=
  Run.returns_run (I := fun t : Machine => P t.pfa) (fun _ _ _ ht => store_keeps ht _ _) h

include hP

theorem newPageTable_keeps (h : P s.pfa) (d flags : ℕ) :
    Run.Returns HeapIntact (newPageTable s d flags) fun r => P r.2.pfa := by
  refine (load_returns s _).bind fun pde _ => ?_
  split
  · exact Run.returns_ok h
  · obtain ⟨p, pfa, halloc, hpfa⟩ := hP h 1
    rw [halloc, Run.ok_bind]
    by_cases hp : p = 0
    · simp only [if_pos hp]
      exact Run.returns_ok hpfa
    · simp only [if_neg hp]
      exact (store_keeps (s := { s with pfa := pfa }) hpfa _ _).bind fun t ht =>
        (fill_keeps ht _ _ _).bind fun u hu => Run.returns_ok hu

/-- `map_page` keeps what allocations keep, whatever the page tables contain. -/
theorem mapPage_keeps (h : P s.pfa) (phys virt flags : ℕ) :
    Run.Returns HeapIntact (mapPage s phys virt flags) fun r => P r.2.pfa := by
  unfold Ahos.mapPage
  split
  · exact Run.returns_ok h
  · refine (load_returns s _).bind fun pde _ => ?_
    split
    · split
      · exact Run.returns_ok h
      · refine (load_returns s _).bind fun pte _ => ?_
        split
        · exact panic_returns (by decide)
        · exact (store_keeps h _ _).bind fun t ht => Run.returns_ok ht
    · refine (newPageTable_keeps hP h _ _).bind ?_
      rintro ⟨table, t⟩ ht
      simp only
      split
      · exact panic_returns (by decide)
      · exact (store_keeps ht _ _).bind fun u hu => Run.returns_ok hu

theorem mapIdentity_keeps (h : P s.pfa) (addr : ℕ) :
    Run.Returns HeapIntact (mapIdentity s addr notImplemented) fun t => P t.pfa :=
  (mapPage_keeps hP h _ _ _).bind (by
    rintro ⟨mapped, u⟩ hu
    cases mapped with
    | false => exact panic_returns (by decide)
    | true => exact Run.returns_ok hu)

theorem mapFrames_keeps (h : P s.pfa) (p n : ℕ) :
    Run.Returns HeapIntact (mapFrames s p n) fun t => P t.pfa :=
  Run.returns_run (I := fun t : Machine => P t.pfa) (fun _ _ _ ht => mapIdentity_keeps hP ht _) h

end Keeps

/-- `map_page` keeps the frames, whatever the page tables contain. -/
theorem Owns.mapFrames (h : Owns s mine) (p n : ℕ) :
    Run.Returns HeapIntact (mapFrames s p n) fun t => Owns t mine := by
  refine mapFrames_keeps (P := fun pfa => ∃ others, PfaInv pfa (mine ++ others)) ?_ h p n
  -- a frame that the page tables take is one of the others
  rintro pfa ⟨others, hinv⟩ n
  obtain ⟨p, pfa', halloc, -, hinv'⟩ := pfaAlloc_spec hinv n
  refine ⟨p, pfa', halloc, ?_⟩
  split_ifs at hinv'
  · exact ⟨others, hinv'⟩
  · exact ⟨(p, n) :: others, hinv'.perm List.perm_middle.symm⟩

/-- Unmapping does not touch the page frame allocator. -/
theorem unmapPage_pfa (s : Machine) (virt : ℕ) :
    Run.Returns HeapIntact (unmapPage s virt) fun r => r.2.pfa = s.pfa := by
  unfold unmapPage
  split
  · exact Run.returns_ok rfl
  · split
    · exact panic_returns (by decide)
    · refine (load_returns s _).bind fun pde _ => ?_
      split
      · refine (load_returns s _).bind fun pte _ => ?_
        split
        · exact (store_returns s _ _).bind fun u hu => Run.returns_ok hu
        · exact Run.returns_ok rfl
      · exact Run.returns_ok rfl

theorem unmapFrames_pfa (s : Machine) (p n : ℕ) :
    Run.Returns HeapIntact (unmapFrames s p n) fun t => t.pfa = s.pfa := by
  refine Run.returns_run (fun t i _ ht => (unmapPage_pfa t _).bind ?_) rfl
  rintro ⟨unmapped, u⟩ hu
  cases unmapped with
  | false => exact panic_returns (by decide)
  | true => exact Run.returns_ok (hu.trans ht)

theorem Owns.unmapFrames (h : Owns s mine) (p n : ℕ) :
    Run.Returns HeapIntact (unmapFrames s p n) fun t => Owns t mine :=
  (unmapFrames_pfa s p n).imp fun t ht => by
    unfold Owns
    rw [ht]
    exact h

end Owns

/-- The frames of the allocator are owned, whatever the page tables contain. -/
theorem owns_keeper : FrameKeeper HeapIntact fun s mapped pending => Owns s (pending ++ mapped) where
  owned h := by
    obtain ⟨others, hinv⟩ := h
    exact ⟨others, by rwa [← List.append_assoc]⟩
  alloc h n := by
    obtain ⟨p, pfa, halloc, howns⟩ := h.alloc n
    refine ⟨p, pfa, halloc, ?_⟩
    split_ifs at howns ⊢ <;> exact howns
  map h := (h.mapFrames _ _).imp fun t ht => by
    obtain ⟨others, hinv⟩ := ht
    exact ⟨others, hinv.perm (List.perm_middle.symm.append_right others)⟩
  unmap h := (h.unmapFrames _ _).imp fun t ht => by
    obtain ⟨others, hinv⟩ := ht
    exact ⟨others, hinv.perm (List.perm_middle.append_right others)⟩
  free h := by
    obtain ⟨others, hinv⟩ := h
    obtain ⟨pfa, hfree, -, hinv', -⟩ := pfaFree_spec hinv (List.mem_cons_self ..)
    rw [List.cons_append, List.cons_append, List.erase_cons_head] at hinv'
    exact ⟨pfa, hfree, others, hinv'⟩
  perm hperm h := by
    obtain ⟨others, hinv⟩ := h
    exact ⟨others, hinv.perm ((hperm.append_left _).append_right others)⟩

/-! ## The invariant over whole runs -/

/-- The heap before the first call. -/
def HeapRun.start (machine : Machine) : HeapRun := ⟨⟨machine, [], []⟩, []⟩

/-- The heap before the first call, over frames of the page frame allocator. -/
theorem heapInv_start {machine : Machine} {others : List (ℕ × ℕ)}
    (hpfa : PfaInv machine.pfa others) :
    HeapInv (fun s mapped pending => Owns s (pending ++ mapped))
      (HeapRun.start machine).heap (HeapRun.start machine).areas [] :=
  ⟨⟨others, hpfa⟩, by simp [HeapRun.start], by simp [HeapRun.start], List.Perm.nil⟩

/-- **The allocator's invariant over whole runs.** Whatever the page tables contain, at every point
of a run every outstanding small allocation is a used chunk of the least power of two that holds
the request, behind the header and the chunkmap of its block, every big one consists of whole
page frames, all of them and the metadata are apart from each other and from the headers, and
the free counters are right. No run ends in a panic about a broken heap. -/
theorem kmalloc_run_sound {machine : Machine} {others : List (ℕ × ℕ)}
    (hpfa : PfaInv machine.pfa others) {ops : List HeapOp} (hops : ∀ op ∈ ops, op.Bounded) :
    (∀ s, Run.run HeapRun.step (.start machine) ops = .ok s → s.Sound ∧
      ∀ a ∈ s.outstanding,
        IsLeast {x | (∃ k, x = 2 ^ k) ∧ max a.2 8 ≤ x} (allocSize a.2)) ∧
    ∀ e, Run.run HeapRun.step (.start machine) ops = .error e →
      e ≠ .panic "found block does not have any free chunk!" ∧
      e ≠ .panic "block cannot even hold a single element" := by
  obtain ⟨hok, herror⟩ := HeapRun.run_spec owns_keeper hops (heapInv_start hpfa)
  refine ⟨fun s hs => ⟨(hok s hs).sound owns_keeper, fun a _ => isLeast_allocSize a.2⟩,
    fun e he => ?_⟩
  exact ⟨herror e he _ (by simp [brokenHeap]), herror e he _ (by simp [brokenHeap])⟩

/-- A machine before paging is enabled, with five free frames at 2 MB and a page table for them. -/
def heapMachine : Machine where
  mem := fun a => if a = 0x300000 then 0x30101b else 0
  pfa := [⟨0x200000, List.replicate 5 .free⟩]
  pageDirectory := 0x300000
  pagingEnabled := false
  cr3 := 0
  cr0Pg := false

theorem pfaInv_heapMachine : PfaInv heapMachine.pfa [] := by
  refine pfaInv_of_free ⟨?_, ?_, ?_⟩ ?_
  · simp [shape, heapMachine]
  · simp [shape, heapMachine, PfaRegion.nbPages]
  · simp [shape, heapMachine]
  · simp [heapMachine]

/-- A small and a big allocation, and the small one released: the big one consists of two frames,
next to a block for its metadata. -/
theorem kmalloc_run_sound_five_frames :
    ∃ s, Run.run HeapRun.step (.start heapMachine) [.kmalloc 5, .kmalloc 5000, .kfree 1] = .ok s ∧
      s.outstanding = [(0x201000, 5000)] ∧ s.Sound := by
  have hrun : (Run.run HeapRun.step (.start heapMachine)
      [.kmalloc 5, .kmalloc 5000, .kfree 1]).map HeapRun.outstanding =
        .ok [(0x201000, 5000)] := by decide +kernel
  cases hs : Run.run HeapRun.step (.start heapMachine) [.kmalloc 5, .kmalloc 5000, .kfree 1] with
  | error e =>
    rw [hs] at hrun
    cases hrun
  | ok s =>
    rw [hs] at hrun
    refine ⟨s, rfl, Except.ok.inj hrun, ?_⟩
    exact ((kmalloc_run_sound pfaInv_heapMachine (by simp [HeapOp.Bounded])).1 s hs).1

end Ahos
