import Ahos.Kernel.MemInit
import Ahos.Mem.Kmalloc.RawFree

/-!
# The heap in memory, from boot on

The allocator that works on records and the code that works on the memory of the machine
start from the same boot and make the same calls. They return the same pointers and stop
with the same panics, and a word that a caller has written into its area is there until
the area is released, whatever else is allocated, released and written in between.
-/

namespace Ahos

/-! ## Runs on the machine -/

/-- What the kernel does with its heap: it calls the allocator, or it writes the word `k` of the
area of an outstanding pointer. -/
inductive RawOp where
  | call (op : HeapOp)
  | write (i k word : ℕ)
deriving DecidableEq, Repr

/-- The call of an operation. -/
def RawOp.call? : RawOp → Option HeapOp
  | .call op => some op
  | .write .. => none

/-- The machine, the pointers that the callers hold, and the words that they have written into
areas that are not released. -/
structure RawRun where
  machine : Machine
  outstanding : List (ℕ × ℕ)
  written : ℕ → Option ℕ

namespace RawRun

/-- The state before the first call. -/
def start (machine : Machine) : RawRun := ⟨machine, [], fun _ => none⟩

/-- One operation. -/
def step (lists : Raw.AhaLists) (s : RawRun) : RawOp → Outcome RawRun
  | .call (.kmalloc size) => do
    let (p, machine) ← Raw.kmalloc lists s.machine size
    return { s with
      machine := machine
      outstanding := if p = 0 then s.outstanding else (p, size) :: s.outstanding }
  | .call (.kfree i) =>
    match s.outstanding[i]? with
    | none => .ok s
    | some a => do
      let machine ← Raw.kfree lists 2 s.machine a.1
      return ⟨machine, s.outstanding.eraseIdx i,
        fun x => if a.1 ≤ x ∧ x < a.1 + a.2 then none else s.written x⟩
  | .write i k word =>
    match s.outstanding[i]? with
    | none => .ok s
    | some a =>
      if 4 * k + 4 ≤ a.2 then do
        let machine ← s.machine.store (a.1 + 4 * k) word
        return { s with
          machine := machine
          written := Function.update s.written (a.1 + 4 * k) (some word) }
      else .ok s

end RawRun

/-! ## The simulation -/

namespace Raw

variable {lists : AhaLists} {dir : ℕ} {regions : List (ℕ × ℕ)} {m : ℕ → Option (ℕ × ℕ)}
  {r : HeapRun} {r' : RawRun}

/-- The run on the machine is where the run on records is. -/
structure InMemory (lists : AhaLists) (dir : ℕ) (regions : List (ℕ × ℕ))
    (m : ℕ → Option (ℕ × ℕ)) (r : HeapRun) (r' : RawRun) : Prop where
  inv : HeapInv (KeptFrames dir regions m) r.heap r.areas []
  stores : Stores lists dir r.heap r'.machine
  outstanding : r'.outstanding = r.outstanding
  written : ∀ x word, r'.written x = some word → r'.machine.mem x = word ∧
    ∃ a ∈ r.outstanding, a.1 ≤ x ∧ x < a.1 + a.2

theorem le_allocSize (n : ℕ) : n ≤ allocSize n ∧ 0 < allocSize n := by
  have h := Nat.le_pow_clog (b := 2) (by omega) (max n 8)
  unfold allocSize
  omega

/-- The bytes of an outstanding pointer lie in its area. -/
theorem inAreas_of_outstanding {a : ℕ × ℕ} (ha : a ∈ r.outstanding) {x : ℕ} (hlo : a.1 ≤ x)
    (hhi : x < a.1 + a.2) : InAreas r.areas x := by
  have := (le_allocSize a.2).1
  refine ⟨(a.1, allocSize a.2), ?_, hlo, by simp only; omega⟩
  exact List.mem_map_of_mem (f := fun a : ℕ × ℕ => (a.1, allocSize a.2)) ha

/-- Different outstanding pointers have different addresses. -/
theorem outstanding_ne (hinv : HeapInv (KeptFrames dir regions m) r.heap r.areas []) {i j : ℕ}
    (hi : i < r.outstanding.length) (hj : j < r.outstanding.length) (hij : i ≠ j) :
    r.outstanding[i].1 ≠ r.outstanding[j].1 := by
  have hpw := hinv.areas.pairwise (hinv.pairwise_areas (keptFrames_keeper dir regions m))
    fun h => h.symm
  have hpw := (List.pairwise_append.mp hpw).2.1
  rw [HeapRun.areas, List.pairwise_map, List.pairwise_iff_getElem] at hpw
  have hpos := le_allocSize r.outstanding[i].2
  have hpos' := le_allocSize r.outstanding[j].2
  intro heq
  rcases Nat.lt_or_gt_of_ne hij with hlt | hlt
  · have := hpw i j hi hj hlt
    simp only [AreasApart] at this
    omega
  · have := hpw j i hj hi hlt
    simp only [AreasApart] at this
    omega

/-- **Every call of the allocator** does on the machine what it does on records. -/
theorem InMemory.call (hheads : Heads lists regions m) (h : InMemory lists dir regions m r r')
    {op : HeapOp} (hop : op.Bounded) :
    Run.Simulates (InMemory lists dir regions m) (r.step op) (r'.step lists (.call op)) := by
  have hspec := HeapRun.step_spec (keptFrames_keeper dir regions m) hop h.inv
  suffices hsim : Run.Simulates (fun s s' => Stores lists dir s.heap s'.machine ∧
      s'.outstanding = s.outstanding ∧ ∀ x word, s'.written x = some word →
        s'.machine.mem x = word ∧ ∃ a ∈ s.outstanding, a.1 ≤ x ∧ x < a.1 + a.2)
      (r.step op) (r'.step lists (.call op)) from
    (hsim.and hspec).imp fun s s' ⟨hinv, hst, hout, hwritten⟩ => ⟨hinv, hst, hout, hwritten⟩
  cases op with
  | kmalloc size =>
    refine (kmalloc_simulates hheads h.inv h.stores hop).bind ?_
    rintro ⟨p, heap⟩ ⟨p', machine⟩ ⟨hptr, hst, hkeeps⟩
    simp only at hptr hst hkeeps
    subst hptr
    refine .ok ⟨hst, by simp only [h.outstanding], fun x word hx => ?_⟩
    obtain ⟨hmem, a, ha, hlo, hhi⟩ := h.written x word hx
    refine ⟨(hkeeps x (inAreas_of_outstanding ha hlo hhi)).trans hmem, a, ?_, hlo, hhi⟩
    simp only
    split_ifs
    · exact ha
    · exact List.mem_cons_of_mem _ ha
  | kfree i =>
    simp only [HeapRun.step, RawRun.step, h.outstanding]
    cases hget : r.outstanding[i]? with
    | none => exact .ok ⟨h.stores, h.outstanding, h.written⟩
    | some a =>
      obtain ⟨hi, rfl⟩ := List.getElem?_eq_some_iff.mp hget
      refine (kfree_simulates hheads h.inv h.stores 0 _).bind ?_
      rintro heap machine ⟨hst, hkeeps⟩
      refine .ok ⟨hst, rfl, fun x word hx => ?_⟩
      simp only at hx
      split_ifs at hx with hin
      obtain ⟨hmem, b, hb, hlo, hhi⟩ := h.written x word hx
      obtain ⟨j, hj, rfl⟩ := List.getElem_of_mem hb
      have hij : i ≠ j := by
        rintro rfl
        exact hin ⟨hlo, hhi⟩
      have harea : (r.outstanding[j].1, allocSize r.outstanding[j].2) ∈ r.areas :=
        List.mem_map_of_mem (f := fun a : ℕ × ℕ => (a.1, allocSize a.2)) hb
      have hsize := (le_allocSize r.outstanding[j].2).1
      have hkept := hkeeps _ harea (outstanding_ne h.inv hj hi (Ne.symm hij)) x
        ⟨_, List.mem_singleton_self _, hlo, by simp only; omega⟩
      refine ⟨hkept.trans hmem, _, ?_, hlo, hhi⟩
      exact List.mem_eraseIdx_iff_getElem.mpr ⟨j, hj, Ne.symm hij, rfl⟩

/-- **Every write of a caller** leaves the records as they are. -/
theorem InMemory.write (hheads : Heads lists regions m) (h : InMemory lists dir regions m r r')
    (i k word : ℕ) :
    ∃ s', r'.step lists (.write i k word) = .ok s' ∧ InMemory lists dir regions m r s' := by
  simp only [RawRun.step, h.outstanding]
  cases hget : r.outstanding[i]? with
  | none => exact ⟨r', rfl, h⟩
  | some a =>
    by_cases hfit : 4 * k + 4 ≤ a.2
    · have ha := List.mem_of_getElem? hget
      have harea := inAreas_of_outstanding (r := r) ha (x := a.1 + 4 * k) (by omega) (by omega)
      have hdirect := direct_areas hheads h.inv h.stores.shadow
      simp only [if_pos hfit, hdirect.store harea, Run.ok_bind]
      refine ⟨_, rfl, h.inv, ?_, rfl, fun x w hx => ?_⟩
      · have hne : ∀ x, ¬ InAreas r.areas x →
            Function.update r'.machine.mem (a.1 + 4 * k) word x = r'.machine.mem x := by
          refine fun x hx => Function.update_of_ne ?_ _ _
          rintro rfl
          exact hx harea
        refine ⟨⟨?_, fun x hx => ?_⟩, h.stores.heap.congr h.inv.blocks fun x hx => hne x ?_⟩
        · conv_lhs => rw [h.stores.shadow.same]
        · refine (hne x ?_).trans (h.stores.shadow.agree x hx)
          exact fun hin => (InAreas.not_used hheads h.inv hin).2 hx
        · exact fun hin => (InAreas.not_used hheads h.inv hin).1 (stored_piece hx)
      · simp only [Function.update_apply] at hx ⊢
        split_ifs at hx ⊢ with hxa
        · obtain rfl := Option.some.inj hx
          exact ⟨rfl, a, ha, by omega, by omega⟩
        · exact h.written x w hx
    · simp only [if_neg hfit]
      exact ⟨r', rfl, h⟩

/-- **The simulation over runs.** -/
theorem InMemory.run (hheads : Heads lists regions m) (h : InMemory lists dir regions m r r')
    {ops : List RawOp} (hops : ∀ op, RawOp.call op ∈ ops → op.Bounded) :
    Run.Simulates (InMemory lists dir regions m)
      (Run.run HeapRun.step r (ops.filterMap RawOp.call?)) (Run.run (RawRun.step lists) r' ops) := by
  induction ops generalizing r r' with
  | nil => exact .ok h
  | cons op ops ih =>
    have hrest : ∀ op, RawOp.call op ∈ ops → op.Bounded := fun op hop =>
      hops op (List.mem_cons_of_mem _ hop)
    cases op with
    | call op =>
      rw [show (RawOp.call op :: ops).filterMap RawOp.call? = op :: ops.filterMap RawOp.call? from rfl,
        Run.run_cons, Run.run_cons]
      exact (h.call hheads (hops op (List.mem_cons_self ..))).bind fun s s' hs => ih hs hrest
    | write i k word =>
      obtain ⟨s', hstep, hs'⟩ := h.write hheads i k word
      rw [show (RawOp.write i k word :: ops).filterMap RawOp.call? = ops.filterMap RawOp.call? from rfl,
        Run.run_cons, hstep, Run.ok_bind]
      exact ih hs' hrest

/-! ## From boot on -/

/-- The two heads are variables of the kernel image, and `LIST_DECLARE` has made them empty. -/
structure AhaLists.Declared (lists : AhaLists) (kernel : KernelImage) (s : Machine) : Prop where
  apart : NodesApart lists.ahaBlockList lists.ahaBigList
  inside : ∀ head ∈ [lists.ahaBlockList, lists.ahaBigList],
    kernel.kernelStart ≤ head ∧ head + 8 ≤ kernel.kernelEnd
  empty : ∀ head ∈ [lists.ahaBlockList, lists.ahaBigList],
    s.mem head = head ∧ s.mem (head + 4) = head

end Raw

section Boot

variable {kernel : KernelImage} {mbi : MultibootInfo} {s : Machine} {b : MemInit}
  {lists : Raw.AhaLists}

/-- The words of the heads lie in the kernel. -/
theorem headWord_inArea (hlists : lists.Declared kernel s) {x : ℕ} (hx : Raw.HeadWord lists x) :
    (b.ranges kernel).InArea x := by
  have hblock := hlists.inside lists.ahaBlockList (by simp)
  have hbig := hlists.inside lists.ahaBigList (by simp)
  left
  rcases hx with hx | hx
  · exact ⟨by simp only [MemInit.ranges, bootRanges]; omega,
      by simp only [MemInit.ranges, bootRanges]; omega⟩
  · exact ⟨by simp only [MemInit.ranges, bootRanges]; omega,
      by simp only [MemInit.ranges, bootRanges]; omega⟩

theorem Booted.heads (hb : Booted kernel mbi b) (hlists : lists.Declared kernel s) :
    Raw.Heads lists (shape b.machine.pfa) (walk b.machine.mem b.machine.cr3) := by
  refine ⟨hlists.apart, fun x hx => ?_⟩
  have harea := headWord_inArea (b := b) hlists hx
  have hpage := page_mem_bootPages hb.apart harea
  have hlt := mem_bootPages_lt hb.apart.below _ hpage
  refine ⟨?_, noFrame_shape.mpr (hb.area_not_frame harea), kernelFlags, ?_⟩
  · have := hb.apart.below.kernel
    have hin := headWord_inArea (b := b) hlists hx
    omega
  · rw [hb.boot _ (by omega) (by omega), bootMap, if_pos hpage]

/-- After the boot both lists are empty in memory. -/
theorem Booted.stores (hready : BootReady kernel mbi) (hs : s.Unpaged)
    (h : memInit kernel mbi s = .ok b) (hlists : lists.Declared kernel s) :
    Raw.Stores lists b.machine.cr3 ⟨b.machine, [], []⟩ b.machine := by
  have hb := memInit_booted hready hs h
  obtain ⟨hpmm, hpfa, hsetup⟩ := memInit_ok h
  obtain ⟨hmap, -⟩ := bootMap_of_init hready.toBootLayout hpmm
  obtain ⟨hstart, -⟩ := pfaInit_start hmap.inv hpfa
  have hmem : ∀ x, Raw.HeadWord lists x → b.machine.mem x = s.mem x := fun x hx =>
    pagingSetup_outside (s := { s with pfa := b.pfaInit.pfa }) hb.apart.below
      (pfaInv_of_free hstart.geometry hstart.free) hs.flag hs.pg hsetup
      (hb.area_not_frame (headWord_inArea hlists hx))
  have hempty : ∀ head ∈ [lists.ahaBlockList, lists.ahaBigList],
      ListAt (Raw.Own lists []) b.machine.mem head [] := by
    intro head hhead
    have hword : Raw.HeadWord lists head ∧ Raw.HeadWord lists (head + 4) := by
      simp only [List.mem_cons, List.not_mem_nil, or_false] at hhead
      unfold Raw.HeadWord
      omega
    obtain ⟨hprev, hnext⟩ := hlists.empty head hhead
    refine ⟨Links.ring_nil.mpr ⟨?_, ?_⟩, ?_, by simp⟩
    · exact (hmem _ hword.2).trans hnext
    · exact (hmem _ hword.1).trans hprev
    · intro node hnode
      rw [List.mem_singleton.mp hnode]
      exact ⟨.inl hword.1, .inl hword.2⟩
  exact ⟨⟨rfl, fun _ _ => rfl⟩, by simp, by simp, hempty _ (by simp), hempty _ (by simp)⟩

/-- What a run on the machine and the run on records have in common. -/
structure RawRun.Refines (r' : RawRun) (lists : Raw.AhaLists) (dir : ℕ) (r : HeapRun) : Prop where
  outstanding : r'.outstanding = r.outstanding
  /-- The headers, the chunkmaps, the metadata and the lists are in memory. -/
  heap : Raw.HeapAt lists r'.machine.mem r.heap
  /-- Every address means the same. -/
  translate : ∀ v < 4294967296,
    translate r'.machine.mem dir v = Ahos.translate r.heap.machine.mem dir v
  registers : r'.machine = { r.heap.machine with mem := r'.machine.mem }
  /-- A caller reads what it has written. -/
  written : ∀ x word, r'.written x = some word → r'.machine.load x = .ok word

theorem Raw.InMemory.refines {dir : ℕ} {regions : List (ℕ × ℕ)} {m : ℕ → Option (ℕ × ℕ)}
    {r : HeapRun} {r' : RawRun} (hheads : Raw.Heads lists regions m)
    (h : Raw.InMemory lists dir regions m r r') : r'.Refines lists dir r := by
  refine ⟨h.outstanding, h.stores.heap, fun v hv => ?_, h.stores.shadow.same, fun x word hx => ?_⟩
  · exact h.stores.shadow.agree.translate h.inv.frames.frames.paging.inv.self hv
  · obtain ⟨hmem, a, ha, hlo, hhi⟩ := h.written x word hx
    rw [(Raw.direct_areas hheads h.inv h.stores.shadow).load
      (Raw.inAreas_of_outstanding ha hlo hhi), hmem]

/-- Both runs start together. -/
theorem inMemory_start (hready : BootReady kernel mbi) (hs : s.Unpaged)
    (h : memInit kernel mbi s = .ok b)
    (hfree : ¬ (kernel.kernelEnd % 4096 = 0 ∧ FrameIs b.machine.pfa kernel.kernelEnd .free))
    (hlists : lists.Declared kernel s) :
    Raw.InMemory lists b.machine.cr3 (shape b.machine.pfa) (walk b.machine.mem b.machine.cr3)
      (.start b.machine) (.start b.machine) := by
  have hb := memInit_booted hready hs h
  refine ⟨⟨hb.kept hfree, by simp [HeapRun.start], by simp [HeapRun.start], List.Perm.nil⟩,
    Booted.stores hready hs h hlists, rfl, fun x word hx => ?_⟩
  cases hx

/-- **The allocator in memory.** After `mem_init`, the code that keeps its headers, its metadata and
its lists in memory makes every sequence of calls as the allocator on records does: it returns the
same pointers or stops with the same panic, and what its callers write into their areas, between
the calls, changes nothing for the allocator and is changed by nothing but its release. -/
theorem boot_run_in_memory (hready : BootReady kernel mbi) (hs : s.Unpaged)
    (h : memInit kernel mbi s = .ok b)
    (hfree : ¬ (kernel.kernelEnd % 4096 = 0 ∧ FrameIs b.machine.pfa kernel.kernelEnd .free))
    (hlists : lists.Declared kernel s) (ops : List RawOp)
    (hops : ∀ op, RawOp.call op ∈ ops → op.Bounded) :
    Run.Simulates (fun r r' => r.Safe kernel mbi b ∧ r'.Refines lists b.machine.cr3 r)
      (Run.run HeapRun.step (.start b.machine) (ops.filterMap RawOp.call?))
      (Run.run (RawRun.step lists) (.start b.machine) ops) := by
  have hb := memInit_booted hready hs h
  exact ((inMemory_start hready hs h hfree hlists).run (hb.heads hlists) hops).imp fun r r' hr =>
    ⟨hr.inv.safe hb, hr.refines (hb.heads hlists)⟩

/-- The variables of the allocator at the start of the kernel. -/
def oddLists : Raw.AhaLists := ⟨0x100000, 0x100008⟩

theorem declared_odd : oddLists.Declared oddKernel oddMachine where
  apart := .inl (by decide)
  inside := by decide
  empty := by decide

/-- Two allocations, the second one big; the first caller writes a word, and the big area is
released. -/
theorem boot_run_in_memory_odd :
    ∃ b r r', memInit oddKernel bigMbi oddMachine = .ok b ∧
      Run.run HeapRun.step (.start b.machine) [.kmalloc 10, .kmalloc 5000, .kfree 0] = .ok r ∧
      Run.run (RawRun.step oddLists) (.start b.machine)
        [.call (.kmalloc 10), .call (.kmalloc 5000), .write 1 1 77, .call (.kfree 0)] = .ok r' ∧
      r'.outstanding = [(0x109108, 10)] ∧ r.Safe oddKernel bigMbi b ∧
      r'.Refines oddLists b.machine.cr3 r := by
  obtain ⟨b, -, r, hb, -, -, -, -, hrun, hout, -⟩ := oddMachine_run
  have hsim := boot_run_in_memory bootReady_odd ⟨rfl, rfl⟩ hb (oddKernel_end b) declared_odd
    [.call (.kmalloc 10), .call (.kmalloc 5000), .write 1 1 77, .call (.kfree 0)]
    (by simp [HeapOp.Bounded])
  rw [show [RawOp.call (.kmalloc 10), .call (.kmalloc 5000), .write 1 1 77,
    .call (.kfree 0)].filterMap RawOp.call? = [.kmalloc 10, .kmalloc 5000, .kfree 0] from rfl,
    hrun] at hsim
  obtain ⟨r', hr', hsafe, hrefines⟩ := hsim.exists_ok
  exact ⟨b, r, r', hb, hrun, hr', hrefines.outstanding.trans hout, hsafe, hrefines⟩

/-- The pointers that `kfree` accepts: those of the callers, and those of the metadata of the big
allocations. -/
def HeapRun.Accepts (r : HeapRun) (p : ℕ) : Prop :=
  (∃ a ∈ r.outstanding, a.1 = p) ∨ ∃ bigMeta ∈ r.heap.ahaBigList, bigMeta.addr = p

/-- In a heap that keeps its invariant, an accepted pointer is released and any other panics. -/
theorem kfree_accepts {dir : ℕ} {r : HeapRun} (hinv : HeapInv (HeldFrames dir) r.heap r.areas [])
    (p : ℕ) : (r.Accepts p → ∃ heap, kfree r.heap p = .ok heap) ∧
      (¬ r.Accepts p → ∃ msg, kfree r.heap p = panic msg) := by
  have hreturns : ∀ {heap}, kfreeEnding r.heap p = .returns heap → kfree r.heap p = .ok heap :=
    fun hend => by rw [← outcome_kfreeEnding, hend, Ending.outcome]
  have hchunk : ∀ {a}, a ∈ r.heap.usedAreas → a.1 = p → ∃ heap, kfree r.heap p = .ok heap := by
    rintro a ha rfl
    obtain ⟨i, j, blk, hused⟩ := exists_usedChunk ha
    exact ⟨_, hreturns (kfreeEnding_chunk (heldFrames_keeper dir) hinv hused)⟩
  constructor
  · rintro (⟨a, ha, hp⟩ | ⟨bigMeta, hm, hp⟩)
    · have harea : (a.1, allocSize a.2) ∈ r.areas :=
        List.mem_map_of_mem (f := fun a : ℕ × ℕ => (a.1, allocSize a.2)) ha
      rcases List.mem_append.mp (hinv.areas.mem_iff.mpr (List.mem_append_right _ harea)) with
        hused | hbig
      · exact hchunk hused hp
      · obtain ⟨bigMeta, hm, heq⟩ := List.mem_map.mp hbig
        obtain ⟨k, hk, rfl⟩ := List.getElem_of_mem hm
        obtain ⟨heap, hend, -⟩ := kfreeEnding_big hinv (List.getElem?_eq_getElem hk)
        rw [(Prod.mk.inj heq).1.trans hp] at hend
        exact ⟨heap, hreturns hend⟩
    · exact hchunk (hinv.meta_used hm) hp
  · intro hnot
    -- an area in use is that of a caller or that of metadata
    have hareas : ∀ a ∈ r.heap.usedAreas ++ r.heap.bigAreas, a.1 ≠ p := by
      rintro a ha rfl
      rcases List.mem_append.mp (hinv.areas.mem_iff.mp ha) with hmeta | hout
      · obtain ⟨bigMeta, hm, rfl⟩ := List.mem_map.mp hmeta
        exact hnot (.inr ⟨bigMeta, hm, rfl⟩)
      · obtain ⟨a', ha', rfl⟩ := List.mem_map.mp hout
        exact hnot (.inl ⟨a', ha', rfl⟩)
    have hchunk : ∀ i j blk, ¬ UsedChunk r.heap p i j blk := by
      intro i j blk hused
      have hmem : blk.chunkArea j ∈ r.heap.usedAreas :=
        List.mem_flatMap.mpr ⟨blk, List.mem_of_getElem? hused.block,
          mem_usedAreas.mpr ⟨j, hused.index, hused.cell, rfl⟩⟩
      exact hareas _ (List.mem_append_left _ hmem) hused.start.symm
    have hbig : ∀ bigMeta ∈ r.heap.ahaBigList, bigMeta.ptr ≠ p := by
      intro bigMeta hm
      have hmem : (bigMeta.ptr, bigMeta.size) ∈ r.heap.bigAreas :=
        List.mem_map_of_mem (f := fun m : AhaBigMeta => (m.ptr, m.size)) hm
      exact hareas _ (List.mem_append_right _ hmem)
    obtain ⟨msg, hend⟩ := kfreeEnding_other hinv.blocks hchunk hbig
    exact ⟨msg, by rw [← outcome_kfreeEnding, hend, Ending.outcome, panic]⟩

/-- **Every pointer is checked.** In every state of a run after `mem_init`, the code in memory
releases the pointers of the callers and those of its own metadata, and answers every other value,
a pointer that was released before among them, with a panic. -/
theorem boot_run_kfree_checked (hready : BootReady kernel mbi) (hs : s.Unpaged)
    (h : memInit kernel mbi s = .ok b)
    (hfree : ¬ (kernel.kernelEnd % 4096 = 0 ∧ FrameIs b.machine.pfa kernel.kernelEnd .free))
    (hlists : lists.Declared kernel s) (ops : List RawOp)
    (hops : ∀ op, RawOp.call op ∈ ops → op.Bounded) {r' : RawRun}
    (hrun : Run.run (RawRun.step lists) (.start b.machine) ops = .ok r') :
    ∃ r, Run.run HeapRun.step (.start b.machine) (ops.filterMap RawOp.call?) = .ok r ∧
      r'.Refines lists b.machine.cr3 r ∧ ∀ p,
        (r.Accepts p → ∃ t, Raw.kfree lists 2 r'.machine p = .ok t) ∧
        (¬ r.Accepts p → ∃ msg, Raw.kfree lists 2 r'.machine p = panic msg) := by
  have hb := memInit_booted hready hs h
  have hheads := hb.heads hlists
  have hsim := (inMemory_start hready hs h hfree hlists).run hheads hops
  generalize hrun₀ : Run.run HeapRun.step (.start b.machine) (ops.filterMap RawOp.call?) = x at hsim
  rw [hrun] at hsim
  cases hsim with
  | @ok r _ hr =>
    refine ⟨r, rfl, hr.refines hheads, fun p => ?_⟩
    have hinv : HeapInv (HeldFrames b.machine.cr3) r.heap r.areas [] :=
      ⟨hr.inv.frames.frames.held, hr.inv.blocks, hr.inv.bigs, hr.inv.areas⟩
    obtain ⟨haccept, hreject⟩ := kfree_accepts hinv p
    have hfreed := Raw.kfree_simulates hheads hr.inv hr.stores 0 p
    refine ⟨fun hp => ?_, fun hp => ?_⟩
    · obtain ⟨heap, hok⟩ := haccept hp
      rw [hok] at hfreed
      obtain ⟨t, ht, -⟩ := hfreed.exists_ok
      exact ⟨t, ht⟩
    · obtain ⟨msg, hpanic⟩ := hreject hp
      rw [hpanic] at hfreed
      exact ⟨msg, hfreed.eq_error⟩

/-- After a small and a big allocation three pointers are released, and every other one panics: those
of the two callers and that of the metadata. -/
theorem boot_run_kfree_checked_odd :
    ∃ b r', memInit oddKernel bigMbi oddMachine = .ok b ∧
      Run.run (RawRun.step oddLists) (.start b.machine)
        [.call (.kmalloc 10), .call (.kmalloc 5000)] = .ok r' ∧
      ∀ p, (p ∈ [0x10a000, 0x109108, 0x109118] → ∃ t, Raw.kfree oddLists 2 r'.machine p = .ok t) ∧
        (p ∉ [0x10a000, 0x109108, 0x109118] →
          ∃ msg, Raw.kfree oddLists 2 r'.machine p = panic msg) := by
  obtain ⟨b, r, -, hb, hrun, hout, -, hbigs, -⟩ := oddMachine_run
  have hbounded : ∀ op, RawOp.call op ∈ [RawOp.call (.kmalloc 10), .call (.kmalloc 5000)] →
      op.Bounded := by simp [HeapOp.Bounded]
  have hsim := (inMemory_start bootReady_odd ⟨rfl, rfl⟩ hb (oddKernel_end b) declared_odd).run
    ((memInit_booted bootReady_odd ⟨rfl, rfl⟩ hb).heads declared_odd) hbounded
  rw [show [RawOp.call (.kmalloc 10), .call (.kmalloc 5000)].filterMap RawOp.call? =
    [.kmalloc 10, .kmalloc 5000] from rfl, hrun] at hsim
  obtain ⟨r', hr', -⟩ := hsim.exists_ok
  obtain ⟨s, hs, -, hchecked⟩ := boot_run_kfree_checked bootReady_odd ⟨rfl, rfl⟩ hb
    (oddKernel_end b) declared_odd [.call (.kmalloc 10), .call (.kmalloc 5000)] hbounded hr'
  obtain rfl : r = s := Except.ok.inj (hrun.symm.trans hs)
  have haccepts : ∀ p, r.Accepts p ↔ p ∈ [0x10a000, 0x109108, 0x109118] := by
    intro p
    simp only [HeapRun.Accepts, hout, hbigs, List.mem_cons, List.not_mem_nil, or_false,
      exists_eq_or_imp, exists_eq_left]
    tauto
  exact ⟨b, r', hb, hr', fun p => by rw [← haccepts p]; exact hchecked p⟩

end Boot

end Ahos
