import Ahos.Mem.Kmalloc.Runs

/-!
# What a request gets

`kmalloc` rounds the size of a request up before it looks at it. Up to `2 ^ 31` bytes the
result is a chunk or a run of page frames that holds the request and that nobody else owns.
Above, the rounded size is `0`, and the request gets a chunk without a single byte, at the
end of a block that is made for it.
-/

namespace Ahos

/-! ## Requests beyond the last power of two -/

/-- Beyond `2 ^ 31`, the next power of two does not fit in 32 bits. -/
theorem nextHighestPowerOfTwo_overflow {n : ℕ} (hlo : 2 ^ 31 < n) (hhi : n < 2 ^ 32) :
    nextHighestPowerOfTwo n = 0 := by
  have hsub : Word32.sub n 1 = n - 1 := Word32.sub_of_le (by omega) (by omega)
  have hspread := (((((Word32.spread_self (n - 1)).shift (s := 1) (by omega)).shift (s := 2)
    (by omega)).shift (s := 4) (by omega)).shift (s := 8) (by omega)).shift (s := 16) (by omega)
  have hpow := hspread.eq_of_lt (by omega) (by omega)
  have hclog : Nat.clog 2 n = 32 := by
    apply le_antisymm
    · exact Nat.clog_le_of_le_pow (by omega)
    · exact (Nat.lt_clog_iff_pow_lt (by omega)).mpr hlo
  simp only [nextHighestPowerOfTwo, hsub, hpow, hclog]
  rfl

theorem roundedSize_overflow {n : ℕ} (hlo : 2 ^ 31 < n) (hhi : n < 2 ^ 32) :
    roundedSize n = 0 := by
  rw [roundedSize, if_neg (by omega)]
  exact nextHighestPowerOfTwo_overflow hlo hhi

/-- The block that `new_block` makes in the page frame at the address `block`. -/
def freshBlock (block size : ℕ) : AhaBlock :=
  ⟨block, size, nbElts size, nbElts size, alignFirstPtr block (nbElts size),
    List.replicate (nbElts size) .free⟩

/-- What `new_block` does: without a page frame nothing, and otherwise the block becomes the first of
the list. -/
theorem newBlock_cases {h h' : Heap} {size block : ℕ} (hnew : newBlock h size = .ok (block, h')) :
    ∃ pfa, pfaAlloc h.machine.pfa 1 = .ok (block, pfa) ∧
      (block = 0 ∧ h' = { h with machine := { h.machine with pfa := pfa } } ∨
        block ≠ 0 ∧ ∃ machine,
          mapIdentity { h.machine with pfa := pfa } block notImplemented = .ok machine ∧
          h' = ⟨machine, freshBlock block size :: h.ahaBlockList, h.ahaBigList⟩) := by
  simp only [newBlock] at hnew
  split at hnew
  · cases hnew
  · rw [Run.bind_eq_ok] at hnew
    obtain ⟨⟨p, pfa⟩, halloc, hnew⟩ := hnew
    simp only at hnew
    split at hnew
    · next hp =>
      obtain ⟨rfl, rfl⟩ := Prod.mk.inj (Except.ok.inj hnew)
      exact ⟨pfa, by rw [halloc, hp], .inl ⟨rfl, rfl⟩⟩
    · next hp =>
      rw [Run.bind_eq_ok] at hnew
      obtain ⟨machine, hmap, hnew⟩ := hnew
      obtain ⟨rfl, rfl⟩ := Prod.mk.inj (Except.ok.inj hnew)
      exact ⟨pfa, halloc, .inr ⟨hp, machine, hmap, rfl⟩⟩

theorem alignFirstPtr_lt (block n : ℕ) : alignFirstPtr block n < 4294967296 := by
  simp only [alignFirstPtr]
  split_ifs
  · exact Word32.wrap_lt _
  · exact Word32.wrap_lt _

/-- What taking a chunk does: one cell and the counter of its block change. -/
theorem takeChunk_cases {h h' : Heap} {i p : ℕ} (htake : takeChunk h i = .ok (p, h')) :
    ∃ b chunk, h.ahaBlockList[i]? = some b ∧ chunk < b.totElts ∧ p = b.chunkPtr chunk ∧
      h' = { h with ahaBlockList := h.ahaBlockList.set i { b with
        chunkmap := b.chunkmap.set chunk .used, nbFrees := Word32.sub b.nbFrees 1 } } := by
  simp only [takeChunk, Run.bind_eq_ok, readCell_eq_ok] at htake
  obtain ⟨b, hget, htake⟩ := htake
  split at htake
  · cases htake
  · next chunk hfind =>
    obtain ⟨rfl, rfl⟩ := Prod.mk.inj (Except.ok.inj htake)
    exact ⟨b, chunk, hget, List.mem_range.mp (List.mem_of_find?_eq_some hfind), rfl, rfl⟩

/-- Without a block of the size `0`, a request that is rounded to `0` gets a chunk of a new block of
that size. -/
theorem smallAlloc_zero {h h' : Heap} {p : ℕ} (hblocks : ∀ b ∈ h.ahaBlockList, b.eltSize ≠ 0)
    (halloc : smallAlloc h 0 = .ok (p, h')) (hp : p ≠ 0) :
    h'.ahaBigList = h.ahaBigList ∧
      ∃ b, b.eltSize = 0 ∧ h'.ahaBlockList = b :: h.ahaBlockList ∧ (p, 0) ∈ b.usedAreas := by
  have hfind : findNonFullBlock h.ahaBlockList 0 = none := by
    rw [findNonFullBlock, List.findIdx?_eq_none_iff]
    intro b hb
    simp [hblocks b hb]
  simp only [smallAlloc, hfind, Run.bind_eq_ok] at halloc
  obtain ⟨⟨block, h₁⟩, hnew, htake⟩ := halloc
  simp only at htake
  split at htake
  · obtain ⟨rfl, rfl⟩ := Prod.mk.inj (Except.ok.inj htake)
    exact absurd rfl hp
  · next hne =>
    obtain ⟨-, -, ⟨hzero, -⟩ | ⟨-, machine, -, rfl⟩⟩ := newBlock_cases hnew
    · exact absurd hzero hne
    · obtain ⟨b, chunk, hget, hchunk, rfl, rfl⟩ := takeChunk_cases htake
      obtain rfl := Option.some.inj hget
      refine ⟨rfl, _, rfl, rfl, mem_usedAreas.mpr ⟨chunk, hchunk, ?_, ?_⟩⟩
      · exact List.getElem?_set_self (by rw [freshBlock, List.length_replicate]; exact hchunk)
      · have hptr := alignFirstPtr_lt block (nbElts 0)
        simp only [AhaBlock.chunkArea, AhaBlock.chunkPtr, freshBlock, Word32.add_mul_wrap,
          Nat.zero_mul, Nat.add_zero, Word32.wrap_of_lt hptr]

/-! ## Exclusive areas -/

/-- The `n` bytes from `p` lie inside one area in use, a chunk or a run of page frames, that
overlaps no area that was outstanding before, no metadata and no header or chunkmap. -/
def Granted (before : List (ℕ × ℕ)) (h : Heap) (p n : ℕ) : Prop :=
  ∃ a, (a ∈ h.usedAreas ∨ a ∈ h.bigAreas) ∧ a.1 ≤ p ∧ p + n ≤ a.1 + a.2 ∧
    (∀ other ∈ before ++ h.metaAreas, AreasApart a other) ∧
    ∀ b ∈ h.ahaBlockList, AreasApart a (b.addr, 24 + b.totElts)

section Granted

variable {bad : Halt → Prop} {frames : Machine → List (ℕ × ℕ) → List (ℕ × ℕ) → Prop}
  {h h' : Heap} {out : List (ℕ × ℕ)} {p n : ℕ}

/-- A result for a request that can be rounded holds the request. -/
theorem granted_of_le (hk : FrameKeeper bad frames) (hinv : HeapInv frames h out [])
    (hn : n ≤ 2 ^ 31) (halloc : kmalloc h n = .ok (p, h')) (hp : p ≠ 0) : Granted out h' p n := by
  have hinv' : HeapInv frames h' (if p = 0 then out else (p, allocSize n) :: out) [] :=
    (kmalloc_spec hk hinv hn).1 _ halloc
  rw [if_neg hp] at hinv'
  have hmem : (p, allocSize n) ∈ h'.usedAreas ++ h'.bigAreas :=
    hinv'.areas.mem_iff.mpr (by simp)
  have hpw : ((p, allocSize n) :: (out ++ h'.metaAreas)).Pairwise AreasApart := by
    have hperm : (h'.metaAreas ++ (p, allocSize n) :: out).Perm
        ((p, allocSize n) :: (out ++ h'.metaAreas)) :=
      List.perm_middle.trans (List.perm_append_comm.cons _)
    exact (hinv'.areas.trans hperm).pairwise (hinv'.pairwise_areas hk) fun h => h.symm
  have hle : max n 8 ≤ allocSize n := (isLeast_allocSize n).1.2
  refine ⟨(p, allocSize n), List.mem_append.mp hmem, le_rfl, by simp only; omega,
    (List.pairwise_cons.mp hpw).1, fun b hb => hinv'.header_apart hk hb hmem⟩

/-- No area in use holds a request that is rounded to `0`. -/
theorem not_granted_of_lt (hinv : HeapInv frames h out []) (hlo : 2 ^ 31 < n) (hhi : n < 2 ^ 32)
    (halloc : kmalloc h n = .ok (p, h')) (hp : p ≠ 0) : ¬ Granted out h' p n := by
  rw [kmalloc, if_neg (by omega), roundedSize_overflow hlo hhi, if_neg (by omega)] at halloc
  obtain ⟨hbigs, b₀, hzero, hblocks, -⟩ := smallAlloc_zero (fun b hb => by
    have := (hinv.blocks b hb).size.bounds
    omega) halloc hp
  rintro ⟨a, harea, hstart, hend, -⟩
  have hsize : a.2 ≤ 2 ^ 31 := by
    rcases harea with hused | hbig
    · obtain ⟨b, hb, hchunk⟩ := List.mem_flatMap.mp hused
      obtain ⟨i, -, -, rfl⟩ := mem_usedAreas.mp hchunk
      simp only [AhaBlock.chunkArea]
      rw [hblocks, List.mem_cons] at hb
      rcases hb with rfl | hb
      · omega
      · have := (hinv.blocks b hb).size.bounds
        omega
    · rw [Heap.bigAreas, hbigs] at hbig
      obtain ⟨m, hm, rfl⟩ := List.mem_map.mp hbig
      exact (hinv.bigs m hm).bounds.2.1
  omega

/-- The bytes behind the result of a request that succeeds which the request may use: those that it
asks for, and beyond `2 ^ 31` none. -/
def grantedSize (n : ℕ) : ℕ := if n ≤ 2 ^ 31 then n else 0

/-- **The area of a request** starts at its result. It holds the request up to `2 ^ 31` bytes, and
beyond it is empty. -/
theorem kmalloc_area (hk : FrameKeeper bad frames) (hinv : HeapInv frames h out [])
    (hn : n < 2 ^ 32) (halloc : kmalloc h n = .ok (p, h')) (hp : p ≠ 0) :
    ∃ size, ((p, size) ∈ h'.usedAreas ∨ (p, size) ∈ h'.bigAreas) ∧ grantedSize n ≤ size ∧
      (grantedSize n = 0 → size = 0) := by
  by_cases hle : n ≤ 2 ^ 31
  · have hinv' : HeapInv frames h' (if p = 0 then out else (p, allocSize n) :: out) [] :=
      (kmalloc_spec hk hinv hle).1 _ halloc
    rw [if_neg hp] at hinv'
    have hmem : (p, allocSize n) ∈ h'.usedAreas ++ h'.bigAreas :=
      hinv'.areas.mem_iff.mpr (by simp)
    have hsize : max n 8 ≤ allocSize n := (isLeast_allocSize n).1.2
    have hne : n ≠ 0 := by
      rintro rfl
      exact hp (Prod.mk.inj (Except.ok.inj halloc)).1.symm
    rw [grantedSize, if_pos hle]
    exact ⟨allocSize n, List.mem_append.mp hmem, by omega, fun hzero => absurd hzero hne⟩
  · rw [kmalloc, if_neg (by omega), roundedSize_overflow (by omega) hn, if_neg (by omega)] at halloc
    obtain ⟨-, b, -, hblocks, hchunk⟩ := smallAlloc_zero (fun b hb => by
      have := (hinv.blocks b hb).size.bounds
      omega) halloc hp
    rw [grantedSize, if_neg hle]
    refine ⟨0, .inl (List.mem_flatMap.mpr ⟨b, ?_, hchunk⟩), le_rfl, fun _ => rfl⟩
    rw [hblocks]
    exact List.mem_cons_self

end Granted

/-- The first component of a result, read off by evaluation. -/
theorem exists_of_map_fst {α : Type} {x : Outcome (ℕ × α)} {p : ℕ}
    (h : x.map Prod.fst = .ok p) : ∃ q a, x = .ok (q, a) ∧ q = p := by
  obtain ⟨r, hr, hp⟩ := Run.exists_of_map h
  exact ⟨r.1, r.2, hr, hp⟩

/-- **What a request gets**, in every state that requests of at most `2 ^ 31` bytes and releases
reach: a result other than `NULL` stands for an area of its own that holds the request if and only
if the request is at most `2 ^ 31` bytes. -/
theorem kmalloc_grants_iff {machine : Machine} {others : List (ℕ × ℕ)}
    (hpfa : PfaInv machine.pfa others)
    {ops : List HeapOp} (hops : ∀ op ∈ ops, op.Bounded) {s : HeapRun}
    (hrun : Run.run HeapRun.step (.start machine) ops = .ok s) {n p : ℕ} {h' : Heap}
    (hn : n < 2 ^ 32) (halloc : kmalloc s.heap n = .ok (p, h')) (hp : p ≠ 0) :
    Granted s.areas h' p n ↔ n ≤ 2 ^ 31 := by
  have hinv := (HeapRun.run_spec owns_keeper hops (heapInv_start hpfa)).1 s hrun
  constructor
  · intro hgranted
    by_contra hlt
    exact not_granted_of_lt hinv (by omega) hn halloc hp hgranted
  · exact fun hle => granted_of_le owns_keeper hinv hle halloc hp

/-- Five bytes get an area of their own from the machine with five frames, and two gigabytes and one
byte do not. -/
theorem kmalloc_grants_iff_five_frames :
    (∃ p h', kmalloc (HeapRun.start heapMachine).heap 5 = .ok (p, h') ∧ p ≠ 0 ∧
      Granted [] h' p 5) ∧
    ∃ p h', kmalloc (HeapRun.start heapMachine).heap 0x80000001 = .ok (p, h') ∧ p ≠ 0 ∧
      ¬ Granted [] h' p 0x80000001 := by
  have hops : ∀ op ∈ ([] : List HeapOp), op.Bounded := by simp
  constructor
  · obtain ⟨p, h', halloc, hp⟩ := exists_of_map_fst (x := kmalloc (HeapRun.start heapMachine).heap 5)
      (p := 0x2001dc) (by decide +kernel)
    exact ⟨p, h', halloc, hp ▸ by decide, (kmalloc_grants_iff pfaInv_heapMachine hops rfl
      (by decide) halloc (hp ▸ by decide)).mpr (by decide)⟩
  · obtain ⟨p, h', halloc, hp⟩ := exists_of_map_fst
      (x := kmalloc (HeapRun.start heapMachine).heap 0x80000001) (p := 0x200ffc) (by decide +kernel)
    exact ⟨p, h', halloc, hp ▸ by decide, fun hgranted => absurd ((kmalloc_grants_iff
      pfaInv_heapMachine hops rfl (by decide) halloc (hp ▸ by decide)).mp hgranted)
      (by decide)⟩

/-- Two gigabytes and one byte, of the machine with five frames: the result is not `NULL`, but no
area in use holds the request. -/
theorem kmalloc_grants_nothing :
    ∃ p h', kmalloc (HeapRun.start heapMachine).heap 0x80000001 = .ok (p, h') ∧ p ≠ 0 ∧
      ¬ Granted (HeapRun.start heapMachine).areas h' p 0x80000001 := by
  obtain ⟨p, h', halloc, hp⟩ := exists_of_map_fst
    (x := kmalloc (HeapRun.start heapMachine).heap 0x80000001) (p := 0x200ffc) (by decide +kernel)
  have hne : p ≠ 0 := hp ▸ by decide
  have hinv := heapInv_start pfaInv_heapMachine
  exact ⟨p, h', halloc, hne, not_granted_of_lt hinv (by decide) (by decide) halloc hne⟩

end Ahos
