import Ahos.Lib.Bytes
import Ahos.Mem.Boot

/-!
# The metadata of the page frame allocator in memory

`reserve_regions` writes the metadata into the start of the hosting region: the number of regions,
a pointer to the header of each region, and behind the pointers the headers, each followed by the
page map of its region. The page map of the hosting region is written in full before the region
loses the pages of the metadata, so that the next header begins inside the cells of these pages.

The memory is modelled by its bytes, and every access is checked against `[pfa, pfa + pfa_size)`.
-/

namespace Ahos

/-! ## The memory -/

/-- The value of a page state. -/
def PageState.code : PageState → ℕ
  | .free => 0
  | .used => 1
  | .usedHead => 2
  | .usedTail => 3
  | .usedPart => 4
  | .other code => code

/-- The memory of the metadata: the `size` bytes from `pfa` on. -/
structure PfaMemory where
  pfa : ℕ
  size : ℕ
  bytes : ℕ → ℕ

namespace PfaMemory

/-- The `n` bytes from `p` on lie in the memory. -/
def Inside (m : PfaMemory) (p n : ℕ) : Prop := m.pfa ≤ p ∧ p + n ≤ m.pfa + m.size

instance (m : PfaMemory) (p n : ℕ) : Decidable (m.Inside p n) := by
  unfold Inside
  infer_instance

/-- Reading a word. -/
def load (m : PfaMemory) (p : ℕ) : Outcome ℕ :=
  if m.Inside p 4 then .ok (Bytes.word m.bytes p) else .error .outOfBounds

/-- Writing a word. -/
def store (m : PfaMemory) (p v : ℕ) : Outcome PfaMemory :=
  if m.Inside p 4 then .ok { m with bytes := Bytes.setWord m.bytes p v } else .error .outOfBounds

/-- Writing a byte. -/
def storeByte (m : PfaMemory) (p b : ℕ) : Outcome PfaMemory :=
  if m.Inside p 1 then .ok { m with bytes := Function.update m.bytes p b }
  else .error .outOfBounds

/-- `memset`. -/
def memset (m : PfaMemory) (p value n : ℕ) : Outcome PfaMemory :=
  (List.range n).foldlM (fun m i => m.storeByte (p + i) value) m

end PfaMemory

/-! ## The code -/

/-- The loop of `init_pfa_region`: the number of rounds that are left, with one for the last test,
and the counter `page`. -/
def fillPagemap (region : ℕ) : ℕ → ℕ → PfaMemory → Outcome PfaMemory
  | 0, _, _ => .error .loops
  | rounds + 1, page, m => do
    let nbPages ← m.load (region + 4)
    if page < nbPages then
      let m ← m.storeByte (region + 8 + page) PageState.free.code
      fillPagemap region rounds (page + 1) m
    else return m

/-- `init_pfa_region` on the header at `region`. -/
def initPfaRegionAt (pmme : PhysMmapEntry) (region : ℕ) (m : PfaMemory) : Outcome PfaMemory := do
  let m ← m.store region (pageAlign pmme.addr)
  let m ← m.store (region + 4) (alignedLen pmme / 4096)
  fillPagemap region (alignedLen pmme / 4096 + 1) 0 m

/-- The hosting region loses the pages of the metadata; another region stays as it is. -/
def shrinkHostAt (pfaSize pfaRegion region newRegion : ℕ) (m : PfaMemory) : Outcome PfaMemory :=
  if region = pfaRegion then do
    let firstPage ← m.load newRegion
    let m ← m.store newRegion (Word32.add firstPage pfaSize)
    let nbPages ← m.load (newRegion + 4)
    m.store (newRegion + 4) (Word32.sub nbPages (pfaSize / 4096))
  else .ok m

/-- `pfa->region_ptrs[pfa->nb_regions++] = new_region`. -/
def addRegionPtr (newRegion : ℕ) (m : PfaMemory) : Outcome PfaMemory := do
  let nbRegions ← m.load m.pfa
  let m ← m.store m.pfa (Word32.add nbRegions 1)
  m.store (m.pfa + 4 + 4 * nbRegions) newRegion

/-- The second loop of `reserve_regions`, from the entry with the index `region` on. The entries
that become regions are reserved. -/
def layoutRegions (pfaSize pfaRegion : ℕ) :
    ℕ → PhysMmap → ℕ → PfaMemory → Outcome (PfaMemory × PhysMmap)
  | _, [], _, m => .ok (m, [])
  | region, pmme :: rest, newRegion, m =>
    if isValidRegion pmme then do
      let m ← initPfaRegionAt pmme newRegion m
      let m ← shrinkHostAt pfaSize pfaRegion region newRegion m
      let m ← addRegionPtr newRegion m
      let nbPages ← m.load (newRegion + 4)
      let (m, rest) ← layoutRegions pfaSize pfaRegion (region + 1) rest
        (Word32.add newRegion (8 + nbPages)) m
      return (m, { pmme with type := .reserved } :: rest)
    else do
      let (m, rest) ← layoutRegions pfaSize pfaRegion (region + 1) rest newRegion m
      return (m, pmme :: rest)

/-- The first loop of `reserve_regions`, which skips the `region_ptrs`. -/
def skipRegionPtrs (pmm : PhysMmap) (newRegion : ℕ) : ℕ :=
  pmm.foldl (fun newRegion pmme => if isValidRegion pmme then Word32.add newRegion 4 else newRegion)
    newRegion

/-- `reserve_regions` on the memory. -/
def reserveRegionsAt (pmm : PhysMmap) (pfaSize pfaRegion : ℕ) (m : PfaMemory) :
    Outcome (PfaMemory × PhysMmap) :=
  if pageOffset pfaSize ≠ 0 ∨ pfaRegion ≥ pmm.length then panic "invalid argument"
  else do
    let m ← m.store m.pfa 0
    let m ← m.memset m.pfa 0 pfaSize
    layoutRegions pfaSize pfaRegion 0 pmm (skipRegionPtrs pmm (m.pfa + 4)) m

/-! ## What an access changes -/

/-- The memory after writes to the addresses of `S`. -/
structure PfaMemory.Writes (S : Set ℕ) (m m' : PfaMemory) : Prop where
  pfa_eq : m'.pfa = m.pfa
  size_eq : m'.size = m.size
  frame : ∀ x ∉ S, m'.bytes x = m.bytes x

/-- The header at `p`, with the page map behind it, describes the region. -/
structure HoldsRegion (bytes : ℕ → ℕ) (p : ℕ) (region : PfaRegion) : Prop where
  firstPage : Bytes.word bytes p = region.firstPage
  nbPages : Bytes.word bytes (p + 4) = region.nbPages
  pagemap : ∀ (j : ℕ) c, region.pagemap[j]? = some c → bytes (p + 8 + j) = c.code

namespace PfaMemory

variable {m m' m'' : PfaMemory} {S T : Set ℕ} {p v : ℕ}

/-- A part of a range that lies in the memory. -/
theorem Inside.mono {n q k : ℕ} (h : m.Inside p n) (hlo : p ≤ q) (hhi : q + k ≤ p + n) :
    m.Inside q k :=
  ⟨h.1.trans hlo, hhi.trans h.2⟩

theorem Writes.refl (m : PfaMemory) : Writes ∅ m m := ⟨rfl, rfl, fun _ _ => rfl⟩

theorem Writes.trans (h : Writes S m m') (h' : Writes T m' m'') : Writes (S ∪ T) m m'' where
  pfa_eq := h'.pfa_eq.trans h.pfa_eq
  size_eq := h'.size_eq.trans h.size_eq
  frame x hx := by
    rw [Set.mem_union, not_or] at hx
    rw [h'.frame x hx.2, h.frame x hx.1]

theorem Writes.mono (h : Writes S m m') (hle : S ⊆ T) : Writes T m m' :=
  ⟨h.pfa_eq, h.size_eq, fun x hx => h.frame x fun hin => hx (hle hin)⟩

theorem Writes.inside_iff (h : Writes S m m') {n : ℕ} : m'.Inside p n ↔ m.Inside p n := by
  rw [Inside, Inside, h.pfa_eq, h.size_eq]

/-- A word outside the written addresses is kept. -/
theorem Writes.word_eq (h : Writes S m m') (hp : ∀ x, p ≤ x → x < p + 4 → x ∉ S) :
    Bytes.word m'.bytes p = Bytes.word m.bytes p :=
  Bytes.word_congr fun x hlo hhi => h.frame x (hp x hlo hhi)

/-- So is a header with its page map. -/
theorem Writes.holdsRegion (h : Writes S m m') {region : PfaRegion}
    (hp : ∀ x, p ≤ x → x < p + 8 + region.nbPages → x ∉ S) (hr : HoldsRegion m.bytes p region) :
    HoldsRegion m'.bytes p region where
  firstPage := (h.word_eq fun x hlo hhi => hp x hlo (by omega)).trans hr.firstPage
  nbPages := (h.word_eq fun x hlo hhi => hp x (by omega) (by omega)).trans hr.nbPages
  pagemap j c hc := by
    obtain ⟨hj, -⟩ := List.getElem?_eq_some_iff.mp hc
    rw [h.frame _ (hp _ (by omega) (by unfold PfaRegion.nbPages; omega)), hr.pagemap j c hc]

theorem load_eq (h : m.Inside p 4) : m.load p = .ok (Bytes.word m.bytes p) := if_pos h

/-- A store changes its word. -/
theorem store_spec (h : m.Inside p 4) (hv : v < 4294967296) :
    ∃ m', m.store p v = .ok m' ∧ Writes (Set.Ico p (p + 4)) m m' ∧ Bytes.word m'.bytes p = v := by
  refine ⟨_, if_pos h, ⟨rfl, rfl, fun x hx => ?_⟩, Bytes.word_setWord hv⟩
  rw [Set.mem_Ico] at hx
  exact Bytes.setWord_of_outside (by omega)

/-- `memset` fills its range. -/
theorem memset_eq {n b : ℕ} (h : m.Inside p n) :
    m.memset p b n = .ok { m with bytes := Bytes.fill m.bytes p n b } := by
  induction n with
  | zero =>
    have hnone : Bytes.fill m.bytes p 0 b = m.bytes := by
      funext x
      exact Bytes.fill_of_outside (by omega)
    rw [hnone]
    rfl
  | succ n ih =>
    have hrest := ih (h.mono le_rfl (by omega))
    rw [memset] at hrest ⊢
    rw [List.range_succ, List.foldlM_append, hrest, Run.ok_bind, List.foldlM_cons, Bytes.fill_succ,
      storeByte, if_pos ⟨(h.mono (by omega) le_rfl : m.Inside (p + n) 1).1,
        (h.mono (by omega) le_rfl : m.Inside (p + n) 1).2⟩]
    rfl

end PfaMemory

/-! ## One region -/

section Region

variable {m : PfaMemory} {p n : ℕ} {e : PhysMmapEntry}

open PfaMemory (Writes)

/-- The loop of `init_pfa_region` writes the cells from `page` on. -/
theorem fillPagemap_spec (rounds page : ℕ) (hin : m.Inside p (8 + n))
    (hn : Bytes.word m.bytes (p + 4) = n) (hrounds : n < page + rounds) (hpage : page ≤ n) :
    ∃ m', fillPagemap p rounds page m = .ok m' ∧
      Writes (Set.Ico (p + 8 + page) (p + 8 + n)) m m' ∧
      ∀ j, page ≤ j → j < n → m'.bytes (p + 8 + j) = PageState.free.code := by
  induction rounds generalizing page m with
  | zero => omega
  | succ rounds ih =>
    rw [fillPagemap, PfaMemory.load_eq (hin.mono (by omega) (by omega)), Run.ok_bind, hn]
    by_cases hlt : page < n
    · rw [if_pos hlt, PfaMemory.storeByte, if_pos (hin.mono (by omega) (by omega)), Run.ok_bind]
      set m₁ : PfaMemory :=
        { m with bytes := Function.update m.bytes (p + 8 + page) PageState.free.code } with hm₁
      have hstep : Writes (Set.Ico (p + 8 + page) (p + 8 + (page + 1))) m m₁ := by
        refine ⟨rfl, rfl, fun x hx => Function.update_of_ne ?_ _ _⟩
        rw [Set.mem_Ico] at hx
        omega
      obtain ⟨m', hrun, hwrites, hcells⟩ := ih (page + 1) (m := m₁) hin
        ((hstep.word_eq fun x _ hhi hx => by rw [Set.mem_Ico] at hx; omega).trans hn)
        (by omega) hlt
      refine ⟨m', hrun, (hstep.trans hwrites).mono ?_, fun j hlo hhi => ?_⟩
      · intro x hx
        simp only [Set.mem_union, Set.mem_Ico] at *
        omega
      · rcases hlo.eq_or_lt with rfl | hlo
        · rw [hwrites.frame _ (by rw [Set.mem_Ico]; omega), hm₁]
          exact Function.update_self _ _ _
        · exact hcells j hlo hhi
    · rw [if_neg hlt]
      refine ⟨m, rfl, (Writes.refl m).mono (Set.empty_subset _), fun j hlo hhi => ?_⟩
      omega

theorem nbPages_lt (he : e.len < 4294967296) : (initPfaRegion e).nbPages < 4294967296 := by
  have := alignedLen_lt he
  rw [nbPages_initPfaRegion]
  omega

/-- `init_pfa_region` writes the header and all cells of the page map. -/
theorem initPfaRegionAt_spec (he : e.addr < 4294967296 ∧ e.len < 4294967296)
    (hin : m.Inside p (8 + (initPfaRegion e).nbPages)) :
    ∃ m', initPfaRegionAt e p m = .ok m' ∧
      Writes (Set.Ico p (p + 8 + (initPfaRegion e).nbPages)) m m' ∧
      HoldsRegion m'.bytes p (initPfaRegion e) := by
  have hlt := nbPages_lt he.2
  rw [nbPages_initPfaRegion] at hin hlt ⊢
  obtain ⟨m₁, hfirst, hw₁, hv₁⟩ := PfaMemory.store_spec (m := m) (p := p)
    (hin.mono le_rfl (by omega)) (pageAlign_lt he.1)
  obtain ⟨m₂, hsecond, hw₂, hv₂⟩ := PfaMemory.store_spec (m := m₁) (p := p + 4)
    (hw₁.inside_iff.mpr (hin.mono (by omega) (by omega))) hlt
  have hkept : Bytes.word m₂.bytes p = pageAlign e.addr :=
    (hw₂.word_eq fun x _ hhi hx => by rw [Set.mem_Ico] at hx; omega).trans hv₁
  obtain ⟨m₃, hloop, hw₃, hcells⟩ := fillPagemap_spec (m := m₂) (p := p)
    (alignedLen e / 4096 + 1) 0
    ((hw₁.trans hw₂).inside_iff.mpr hin) hv₂ (by omega) (by omega)
  refine ⟨m₃, ?_, ((hw₁.trans hw₂).trans hw₃).mono ?_, ?_, ?_, ?_⟩
  · rw [initPfaRegionAt, hfirst, Run.ok_bind, hsecond, Run.ok_bind, hloop]
  · intro x hx
    simp only [Set.mem_union, Set.mem_Ico] at *
    omega
  · exact (hw₃.word_eq fun x _ hhi hx => by rw [Set.mem_Ico] at hx; omega).trans hkept
  · rw [nbPages_initPfaRegion]
    exact (hw₃.word_eq fun x _ hhi hx => by rw [Set.mem_Ico] at hx; omega).trans hv₂
  · intro j c hc
    obtain ⟨hj, rfl⟩ := List.getElem?_eq_some_iff.mp hc
    simp only [initPfaRegion, List.length_replicate, List.getElem_replicate] at hj ⊢
    exact hcells j (Nat.zero_le j) hj

/-- The region that an entry becomes. -/
def regionAt (pfaSize pfaRegion region : ℕ) (e : PhysMmapEntry) : PfaRegion :=
  if region = pfaRegion then hostRegion pfaSize (initPfaRegion e) else initPfaRegion e

/-- The header of the hosting region is changed. The cells behind its page map are left. -/
theorem shrinkHostAt_spec {size pfaRegion region : ℕ} (he : e.len < 4294967296)
    (hle : region = pfaRegion → size / 4096 ≤ (initPfaRegion e).nbPages)
    (hin : m.Inside p (8 + (initPfaRegion e).nbPages))
    (h : HoldsRegion m.bytes p (initPfaRegion e)) :
    ∃ m', shrinkHostAt size pfaRegion region p m = .ok m' ∧ Writes (Set.Ico p (p + 8)) m m' ∧
      HoldsRegion m'.bytes p (regionAt size pfaRegion region e) := by
  by_cases hr : region = pfaRegion
  swap
  · rw [shrinkHostAt, regionAt, if_neg hr, if_neg hr]
    exact ⟨m, rfl, (Writes.refl m).mono (Set.empty_subset _), h⟩
  rw [shrinkHostAt, regionAt, if_pos hr, if_pos hr]
  have hlt := nbPages_lt he
  obtain ⟨m₁, hfirst, hw₁, hv₁⟩ := PfaMemory.store_spec (m := m) (p := p)
    (hin.mono le_rfl (by omega)) (Word32.add_lt (initPfaRegion e).firstPage size)
  have hpages : Bytes.word m₁.bytes (p + 4) = (initPfaRegion e).nbPages :=
    (hw₁.word_eq fun x hlo _ hx => by rw [Set.mem_Ico] at hx; omega).trans h.nbPages
  obtain ⟨m₂, hsecond, hw₂, hv₂⟩ := PfaMemory.store_spec (m := m₁) (p := p + 4)
    (v := Word32.sub (initPfaRegion e).nbPages (size / 4096))
    (hw₁.inside_iff.mpr (hin.mono (by omega) (by omega))) (Word32.wrap_lt _)
  have hhost : (hostRegion size (initPfaRegion e)).nbPages =
      Word32.sub (initPfaRegion e).nbPages (size / 4096) := by
    simp [hostRegion, PfaRegion.nbPages]
  have hsub : Word32.sub (initPfaRegion e).nbPages (size / 4096) =
      (initPfaRegion e).nbPages - size / 4096 := Word32.sub_of_le (hle hr) hlt
  refine ⟨m₂, ?_, (hw₁.trans hw₂).mono ?_, ?_, hv₂.trans hhost.symm, ?_⟩
  · rw [PfaMemory.load_eq (hin.mono le_rfl (by omega)), Run.ok_bind,
      h.firstPage, hfirst, Run.ok_bind,
      PfaMemory.load_eq (hw₁.inside_iff.mpr (hin.mono (by omega) (by omega))), Run.ok_bind,
      hpages, hsecond]
  · intro x hx
    simp only [Set.mem_union, Set.mem_Ico] at *
    omega
  · exact (hw₂.word_eq fun x _ hhi hx => by rw [Set.mem_Ico] at hx; omega).trans hv₁
  · intro j c hc
    obtain ⟨hj, rfl⟩ := List.getElem?_eq_some_iff.mp hc
    have hold : (initPfaRegion e).pagemap[j]? = some .free := by
      simp only [hostRegion, List.length_replicate, hsub] at hj
      rw [List.getElem?_eq_getElem (by unfold PfaRegion.nbPages at hj; omega)]
      simp [initPfaRegion]
    rw [(hw₁.trans hw₂).frame _ (by simp only [Set.mem_union, Set.mem_Ico]; omega),
      h.pagemap j _ hold]
    simp [hostRegion]

/-- `addRegionPtr` counts the region and stores its address. -/
theorem addRegionPtr_spec {d : ℕ} (hd : Bytes.word m.bytes m.pfa = d)
    (hin : m.Inside m.pfa (8 + 4 * d)) (hend : m.pfa + m.size < 4294967296)
    (hp : p < 4294967296) :
    ∃ m', addRegionPtr p m = .ok m' ∧
      Writes (Set.Ico m.pfa (m.pfa + 4) ∪ Set.Ico (m.pfa + 4 + 4 * d) (m.pfa + 8 + 4 * d)) m m' ∧
      Bytes.word m'.bytes m.pfa = d + 1 ∧ Bytes.word m'.bytes (m.pfa + 4 + 4 * d) = p := by
  have hle := hin.2
  have hadd : Word32.add d 1 = d + 1 := Word32.add_of_lt (by omega)
  obtain ⟨m₁, hfirst, hw₁, hv₁⟩ := PfaMemory.store_spec (m := m) (p := m.pfa) (v := d + 1)
    (hin.mono le_rfl (by omega)) (by omega)
  obtain ⟨m₂, hsecond, hw₂, hv₂⟩ := PfaMemory.store_spec (m := m₁) (p := m.pfa + 4 + 4 * d)
    (hw₁.inside_iff.mpr (hin.mono (by omega) (by omega))) hp
  refine ⟨m₂, ?_, (hw₁.trans hw₂).mono ?_, ?_, hv₂⟩
  · rw [addRegionPtr, PfaMemory.load_eq (hin.mono le_rfl (by omega)), Run.ok_bind, hd, hadd,
      hfirst, Run.ok_bind, hw₁.pfa_eq, hsecond]
  · intro x hx
    simp only [Set.mem_union, Set.mem_Ico] at *
    omega
  · exact (hw₂.word_eq fun x _ hhi hx => by rw [Set.mem_Ico] at hx; omega).trans hv₁

end Region

/-! ## All regions -/

/-- The bytes of the headers of the valid entries, with their page maps. -/
def headerRoom (pmm : PhysMmap) : ℕ :=
  ((pmm.filter isValidRegion).map fun e => 8 + (initPfaRegion e).nbPages).sum

/-- The memory shows the regions: their pointers lie from `ptr` on, and their headers from `p` on,
each behind the page map of the one before. -/
def ShowsRegions (bytes : ℕ → ℕ) : ℕ → ℕ → PfaMeta → Prop
  | _, _, [] => True
  | ptr, p, region :: rest =>
    Bytes.word bytes ptr = p ∧ HoldsRegion bytes p region ∧
      ShowsRegions bytes (ptr + 4) (p + 8 + region.nbPages) rest

/-- The addresses that the loop of `reserve_regions` writes: the counter, the pointers of `k`
regions, and their headers. -/
def layoutBytes (pfa ptr k p room : ℕ) : Set ℕ :=
  Set.Ico pfa (pfa + 4) ∪ Set.Ico ptr (ptr + 4 * k) ∪ Set.Ico p (p + room)

section Layout

variable {pfaSize pfaRegion : ℕ}

/-- What is known of the hosting entry is known of it behind the first entry. -/
theorem host_tail {P : PhysMmapEntry → Prop} {e : PhysMmapEntry} {rest : PhysMmap} {region : ℕ}
    (h : ∀ i f, (e :: rest)[i]? = some f → region + i = pfaRegion → P f) :
    ∀ i f, rest[i]? = some f → region + 1 + i = pfaRegion → P f :=
  fun i f hf hi => h (i + 1) f hf (by omega)

theorem nbPages_regionAt_le {region : ℕ} {e : PhysMmapEntry} (he : e.len < 4294967296)
    (hhost : region = pfaRegion → pfaSize / 4096 ≤ (initPfaRegion e).nbPages) :
    (regionAt pfaSize pfaRegion region e).nbPages ≤ (initPfaRegion e).nbPages := by
  have hlt := nbPages_lt he
  unfold regionAt
  split_ifs with hr
  · have hsub : Word32.sub (initPfaRegion e).nbPages (pfaSize / 4096) =
        (initPfaRegion e).nbPages - pfaSize / 4096 := Word32.sub_of_le (hhost hr) hlt
    simp only [hostRegion, PfaRegion.nbPages, List.length_replicate] at hsub ⊢
    omega
  · exact le_rfl

/-- One valid entry of the loop: its header, its pointer, and the counter. -/
theorem layoutRegion_spec {region p d : ℕ} {e : PhysMmapEntry} {m : PfaMemory}
    (he : e.addr < 4294967296 ∧ e.len < 4294967296)
    (hhost : region = pfaRegion → pfaSize / 4096 ≤ (initPfaRegion e).nbPages)
    (hend : m.pfa + m.size < 4294967296) (hd : Bytes.word m.bytes m.pfa = d)
    (hptr : m.pfa + 8 + 4 * d ≤ p) (hroom : p + 8 + (initPfaRegion e).nbPages ≤ m.pfa + m.size) :
    ∃ m₁ m₂ m₃, initPfaRegionAt e p m = .ok m₁ ∧
      shrinkHostAt pfaSize pfaRegion region p m₁ = .ok m₂ ∧
      addRegionPtr p m₂ = .ok m₃ ∧
      PfaMemory.Writes (layoutBytes m.pfa (m.pfa + 4 + 4 * d) 1 p (8 + (initPfaRegion e).nbPages))
        m m₃ ∧
      Bytes.word m₃.bytes m.pfa = d + 1 ∧ Bytes.word m₃.bytes (m.pfa + 4 + 4 * d) = p ∧
      HoldsRegion m₃.bytes p (regionAt pfaSize pfaRegion region e) := by
  have hin : m.Inside p (8 + (initPfaRegion e).nbPages) := ⟨by omega, by omega⟩
  obtain ⟨m₁, hinit, hw₁, hr₁⟩ := initPfaRegionAt_spec he hin
  obtain ⟨m₂, hshrink, hw₂, hr₂⟩ := shrinkHostAt_spec he.2 hhost (hw₁.inside_iff.mpr hin) hr₁
  have hw := hw₁.trans hw₂
  have hd₂ : Bytes.word m₂.bytes m₂.pfa = d := by
    rw [hw.pfa_eq]
    refine (hw.word_eq fun x _ hhi hx => ?_).trans hd
    simp only [Set.mem_union, Set.mem_Ico] at hx
    omega
  have hin₂ : m₂.Inside m₂.pfa (8 + 4 * d) := by
    rw [hw.inside_iff, hw.pfa_eq]
    exact ⟨le_rfl, by omega⟩
  obtain ⟨m₃, hadd, hw₃, hcount, hpointer⟩ := addRegionPtr_spec hd₂ hin₂
    (by rw [hw.pfa_eq, hw.size_eq]; exact hend) (show p < 4294967296 by omega)
  rw [hw.pfa_eq] at hw₃ hcount hpointer
  refine ⟨m₁, m₂, m₃, hinit, hshrink, hadd, (hw.trans hw₃).mono ?_, hcount, hpointer,
    hw₃.holdsRegion (fun x hlo hhi hx => ?_) hr₂⟩
  · intro x hx
    simp only [layoutBytes, Set.mem_union, Set.mem_Ico] at *
    omega
  · simp only [Set.mem_union, Set.mem_Ico] at hx
    omega

/-- **The loop of `reserve_regions`.** It writes inside the memory, it shows the regions of the
model in the order of the entries, and its result is the map of the model. -/
theorem layoutRegions_spec {pmm : PhysMmap} {region p d : ℕ} {m : PfaMemory}
    (hpmm : ∀ e ∈ pmm, e.addr < 4294967296 ∧ e.len < 4294967296)
    (hhost : ∀ i e, pmm[i]? = some e → region + i = pfaRegion →
      pfaSize / 4096 ≤ (initPfaRegion e).nbPages)
    (hend : m.pfa + m.size < 4294967296) (hd : Bytes.word m.bytes m.pfa = d)
    (hptr : m.pfa + 4 + 4 * (d + pmm.countP isValidRegion) ≤ p)
    (hroom : p + headerRoom pmm ≤ m.pfa + m.size) :
    ∃ m', layoutRegions pfaSize pfaRegion region pmm p m =
        .ok (m', (reserveRegionsFrom pfaSize pfaRegion region pmm).2) ∧
      PfaMemory.Writes (layoutBytes m.pfa (m.pfa + 4 + 4 * d) (pmm.countP isValidRegion) p
        (headerRoom pmm)) m m' ∧
      Bytes.word m'.bytes m.pfa = d + pmm.countP isValidRegion ∧
      ShowsRegions m'.bytes (m.pfa + 4 + 4 * d) p
        (reserveRegionsFrom pfaSize pfaRegion region pmm).1 := by
  induction pmm generalizing region p d m with
  | nil => exact ⟨m, rfl, (PfaMemory.Writes.refl m).mono (Set.empty_subset _), hd, trivial⟩
  | cons e rest ih =>
    obtain ⟨he, hrest⟩ := List.forall_mem_cons.mp hpmm
    have hhost' := host_tail hhost
    by_cases hv : isValidRegion e = true
    · have hcount : (e :: rest).countP isValidRegion = rest.countP isValidRegion + 1 :=
        List.countP_cons_of_pos hv
      have hsum : headerRoom (e :: rest) = 8 + (initPfaRegion e).nbPages + headerRoom rest := by
        simp [headerRoom, List.filter_cons_of_pos hv]
      have hfrom : reserveRegionsFrom pfaSize pfaRegion region (e :: rest) =
          (regionAt pfaSize pfaRegion region e ::
            (reserveRegionsFrom pfaSize pfaRegion (region + 1) rest).1,
          { e with type := .reserved } ::
            (reserveRegionsFrom pfaSize pfaRegion (region + 1) rest).2) := by
        simp only [reserveRegionsFrom, if_pos hv, regionAt]
        split_ifs <;> rfl
      have hself : region = pfaRegion → pfaSize / 4096 ≤ (initPfaRegion e).nbPages :=
        hhost 0 e rfl
      have hle := nbPages_regionAt_le he.2 hself
      rw [hcount] at hptr ⊢
      rw [hsum] at hroom ⊢
      obtain ⟨m₁, m₂, m₃, hinit, hshrink, hadd, hw, hd₃, hpointer, hregion⟩ :=
        layoutRegion_spec (m := m) (p := p) he hself hend hd (by omega) (by omega)
      -- the next header begins behind the cells that are left
      set nb := (regionAt pfaSize pfaRegion region e).nbPages with hnb
      obtain ⟨m', hrun, hw', hcount', hshow⟩ := ih (p := p + 8 + nb) (d := d + 1)
        (m := m₃) hrest hhost' (by rw [hw.pfa_eq, hw.size_eq]; exact hend)
        (by rw [hw.pfa_eq]; exact hd₃) (by rw [hw.pfa_eq]; omega)
        (by rw [hw.pfa_eq, hw.size_eq]; omega)
      rw [hw.pfa_eq] at hw' hcount' hshow
      have hnext : Word32.add p (8 + nb) = p + 8 + nb := by
        rw [Word32.add_of_lt (by omega)]
        omega
      refine ⟨m', ?_, (hw.trans hw').mono fun x hx => ?_, by rw [hcount']; omega, ?_⟩
      · rw [layoutRegions, if_pos hv, hinit, Run.ok_bind, hshrink, Run.ok_bind, hadd, Run.ok_bind,
          PfaMemory.load_eq (hw.inside_iff.mpr ⟨by omega, by omega⟩), Run.ok_bind,
          hregion.nbPages, ← hnb, hnext, hrun, hfrom]
        rfl
      · simp only [layoutBytes, Set.mem_union, Set.mem_Ico] at *
        omega
      · rw [hfrom, ShowsRegions]
        refine ⟨?_, hw'.holdsRegion (fun x hlo hhi hx => ?_) hregion, ?_⟩
        · refine (hw'.word_eq fun x hlo hhi hx => ?_).trans hpointer
          simp only [layoutBytes, Set.mem_union, Set.mem_Ico] at hx
          omega
        · simp only [layoutBytes, Set.mem_union, Set.mem_Ico] at hx
          omega
        · rw [show m.pfa + 4 + 4 * d + 4 = m.pfa + 4 + 4 * (d + 1) by omega]
          exact hshow
    · have hcount : (e :: rest).countP isValidRegion = rest.countP isValidRegion :=
        List.countP_cons_of_neg hv
      have hsum : headerRoom (e :: rest) = headerRoom rest := by
        simp [headerRoom, List.filter_cons_of_neg hv]
      rw [hcount] at hptr ⊢
      rw [hsum] at hroom ⊢
      obtain ⟨m', hrun, hw', hcount', hshow⟩ := ih hrest hhost' hend hd hptr hroom
      simp only [reserveRegionsFrom, if_neg hv]
      exact ⟨m', by rw [layoutRegions, if_neg hv, hrun]; rfl, hw', hcount', hshow⟩

end Layout

/-! ## The size -/

section Size

variable {pmm : PhysMmap}

/-- The pointers and the headers, with the counter before them, are what `pfa_meta_size` adds up. -/
theorem foldl_pfaMetaSize (pmm : PhysMmap) {size : ℕ}
    (h : size + (4 * pmm.countP isValidRegion + headerRoom pmm) < 4294967296) :
    pmm.foldl (fun size pmme =>
        if isValidRegion pmme then
          Word32.add (Word32.add (Word32.add size 4) 8) (alignedLen pmme / 4096)
        else size) size =
      size + (4 * pmm.countP isValidRegion + headerRoom pmm) := by
  induction pmm generalizing size with
  | nil => rfl
  | cons e rest ih =>
    rw [List.foldl_cons]
    by_cases hv : isValidRegion e = true
    · simp only [headerRoom, List.countP_cons_of_pos hv, List.filter_cons_of_pos hv, List.map_cons,
        List.sum_cons, nbPages_initPfaRegion] at h ih ⊢
      rw [if_pos hv, Word32.add_of_lt (a := size) (by omega), Word32.add_of_lt (b := 8) (by omega),
        Word32.add_of_lt (by omega), ih (by omega)]
      omega
    · simp only [headerRoom, List.countP_cons_of_neg hv, List.filter_cons_of_neg hv] at h ih ⊢
      rw [if_neg hv, ih h]

/-- The first loop of `reserve_regions` skips one pointer for every valid entry. -/
theorem skipRegionPtrs_eq (pmm : PhysMmap) (newRegion : ℕ)
    (h : newRegion + 4 * pmm.countP isValidRegion < 4294967296) :
    skipRegionPtrs pmm newRegion = newRegion + 4 * pmm.countP isValidRegion := by
  unfold skipRegionPtrs
  induction pmm generalizing newRegion with
  | nil => rfl
  | cons e rest ih =>
    rw [List.foldl_cons]
    by_cases hv : isValidRegion e = true
    · rw [List.countP_cons_of_pos hv] at h ⊢
      rw [if_pos hv, Word32.add_of_lt (by omega), ih _ (by omega)]
      omega
    · rw [List.countP_cons_of_neg hv] at h ⊢
      rw [if_neg hv, ih _ h]

/-- Entries that do not overlap have at most `2 ^ 20` pages together, and every valid entry has at
least one. -/
theorem metaRoom_le (hlt : ∀ e ∈ pmm, e.addr + e.len < 4294967296)
    (hd : pmm.Pairwise fun e f => Disjoint e.bytes f.bytes) :
    4 * pmm.countP isValidRegion + headerRoom pmm ≤ 13 * 1048576 := by
  have hsum : 4096 * (4 * pmm.countP isValidRegion + headerRoom pmm) ≤
      13 * ((pmm.map fun e => (e.addr, e.len)).map Prod.snd).sum := by
    clear hd
    induction pmm with
    | nil => simp [headerRoom]
    | cons e rest ih =>
      obtain ⟨he, hrest⟩ := List.forall_mem_cons.mp hlt
      have := ih hrest
      simp only [headerRoom, List.map_cons, List.sum_cons] at this ⊢
      by_cases hv : isValidRegion e = true
      · obtain ⟨-, halen, hpos⟩ := alignedLen_of_valid he hv
        simp only [List.countP_cons_of_pos hv, List.filter_cons_of_pos hv, List.map_cons,
          List.sum_cons, nbPages_initPfaRegion, halen] at this ⊢
        omega
      · simp only [List.countP_cons_of_neg hv, List.filter_cons_of_neg hv] at this ⊢
        omega
  have hall := Bytes.sum_le_of_disjoint (n := 4294967296) (l := pmm.map fun e => (e.addr, e.len))
    (by rw [List.pairwise_map]; exact hd) fun r hr => by
      obtain ⟨e, he, rfl⟩ := List.mem_map.mp hr
      exact (hlt e he).le
  omega

/-- The size is large enough, and less than a page too large. -/
theorem pfaMetaSize_eq (hlt : ∀ e ∈ pmm, e.addr + e.len < 4294967296)
    (hd : pmm.Pairwise fun e f => Disjoint e.bytes f.bytes) :
    4 + (4 * pmm.countP isValidRegion + headerRoom pmm) ≤ pfaMetaSize pmm ∧
      pfaMetaSize pmm < 4 + (4 * pmm.countP isValidRegion + headerRoom pmm) + 4096 := by
  have hroom := metaRoom_le hlt hd
  rw [pfaMetaSize, foldl_pfaMetaSize pmm (by omega), pageAlign_eq (by omega)]
  omega

end Size

/-! ## The layout -/

/-- `region_ptrs[i]`. -/
def PfaMemory.regionPtr (m : PfaMemory) (i : ℕ) : ℕ := Bytes.word m.bytes (m.pfa + 4 + 4 * i)

/-- The parts of the metadata: `nb_regions`, `region_ptrs`, and the headers with their page maps. -/
def PfaMemory.parts (m : PfaMemory) (regions : PfaMeta) : List (ℕ × ℕ) :=
  (m.pfa, m.pfa + 4) :: (m.pfa + 4, m.pfa + 4 + 4 * regions.length) ::
    regions.zipIdx.map fun x => (m.regionPtr x.2, m.regionPtr x.2 + 8 + x.1.nbPages)

/-- The memory holds the regions: the pointers lead to their headers, and the parts of the metadata
lie apart inside the memory. -/
structure PfaMemory.Layout (m : PfaMemory) (regions : PfaMeta) : Prop where
  nbRegions : Bytes.word m.bytes m.pfa = regions.length
  holds : ∀ (i : ℕ) region, regions[i]? = some region → HoldsRegion m.bytes (m.regionPtr i) region
  disjoint : (m.parts regions).Pairwise fun a b => Disjoint (rangeBytes a) (rangeBytes b)
  inside : ∀ a ∈ m.parts regions, m.pfa ≤ a.1 ∧ a.2 ≤ m.pfa + m.size

/-- The bytes of the headers of regions. -/
def regionRoom (regions : PfaMeta) : ℕ := (regions.map fun region => 8 + region.nbPages).sum

section Shows

variable {bytes : ℕ → ℕ} {base n p : ℕ} {regions : PfaMeta}

/-- The pointers lead to the headers. -/
theorem ShowsRegions.holds (h : ShowsRegions bytes (base + 4 * n) p regions) {i : ℕ}
    {region : PfaRegion} (hi : regions[i]? = some region) :
    HoldsRegion bytes (Bytes.word bytes (base + 4 * (n + i))) region := by
  induction regions generalizing n p i with
  | nil => simp at hi
  | cons first rest ih =>
    obtain ⟨hptr, hfirst, hrest⟩ := h
    cases i with
    | zero =>
      obtain rfl := Option.some.inj hi
      rw [Nat.add_zero, hptr]
      exact hfirst
    | succ i =>
      rw [show n + (i + 1) = n + 1 + i by omega]
      exact ih hrest hi

/-- The headers lie one behind the other. -/
theorem ShowsRegions.apart (h : ShowsRegions bytes (base + 4 * n) p regions) :
    (∀ a ∈ (regions.zipIdx n).map fun x => (Bytes.word bytes (base + 4 * x.2),
        Bytes.word bytes (base + 4 * x.2) + 8 + x.1.nbPages),
      p ≤ a.1 ∧ a.2 ≤ p + regionRoom regions) ∧
    ((regions.zipIdx n).map fun x => (Bytes.word bytes (base + 4 * x.2),
        Bytes.word bytes (base + 4 * x.2) + 8 + x.1.nbPages)).Pairwise fun a b => a.2 ≤ b.1 := by
  induction regions generalizing n p with
  | nil => simp
  | cons first rest ih =>
    obtain ⟨hptr, -, hrest⟩ := h
    obtain ⟨hin, hpair⟩ := ih (n := n + 1) hrest
    have hroom : regionRoom (first :: rest) = 8 + first.nbPages + regionRoom rest := by
      simp [regionRoom]
    rw [List.zipIdx_cons, List.map_cons, List.forall_mem_cons, List.pairwise_cons]
    simp only [hptr, hroom]
    refine ⟨⟨⟨le_rfl, by omega⟩, fun a ha => ?_⟩, fun a ha => (hin a ha).1, hpair⟩
    have := hin a ha
    omega

end Shows

/-- A memory that shows the regions holds them. -/
theorem PfaMemory.Layout.of_shows {m : PfaMemory} {regions : PfaMeta} {p : ℕ}
    (hcount : Bytes.word m.bytes m.pfa = regions.length)
    (hshow : ShowsRegions m.bytes (m.pfa + 4) p regions)
    (hptr : m.pfa + 4 + 4 * regions.length ≤ p)
    (hroom : p + regionRoom regions ≤ m.pfa + m.size) : m.Layout regions := by
  have hheaders := ShowsRegions.apart (n := 0) hshow
  obtain ⟨hin, hpair⟩ := hheaders
  refine ⟨hcount, fun i region hi => ?_, ?_, ?_⟩
  · have := ShowsRegions.holds (n := 0) hshow hi
    rwa [Nat.zero_add] at this
  · simp only [PfaMemory.parts, List.pairwise_cons, List.mem_cons, forall_eq_or_imp]
    refine ⟨⟨?_, fun a ha => ?_⟩, fun a ha => ?_, hpair.imp fun h => ?_⟩
    · simp only [rangeBytes, Set.Ico_disjoint_Ico]
      omega
    · have := (hin a ha).1
      simp only [rangeBytes, Set.Ico_disjoint_Ico]
      omega
    · have := (hin a ha).1
      simp only [rangeBytes, Set.Ico_disjoint_Ico]
      omega
    · simp only [rangeBytes, Set.Ico_disjoint_Ico]
      omega
  · simp only [PfaMemory.parts, List.mem_cons, forall_eq_or_imp]
    refine ⟨⟨le_rfl, by omega⟩, ⟨by omega, by omega⟩, fun a ha => ?_⟩
    have := hin a ha
    omega

/-! ## The regions -/

/-- The whole pages of an entry, all of them free. -/
def wholePages (e : PhysMmapEntry) : PfaRegion :=
  ⟨4096 * ((e.addr + 4095) / 4096),
    List.replicate ((e.addr + e.len) / 4096 - (e.addr + 4095) / 4096) .free⟩

/-- A region without its first pages. -/
def PfaRegion.dropPages (region : PfaRegion) (n : ℕ) : PfaRegion :=
  ⟨region.firstPage + 4096 * n, region.pagemap.drop n⟩

/-- What the allocator manages: the whole pages of the valid entries, in order, where the hosting
entry misses the pages of the metadata. -/
def managedRegions (pfaSize pfaRegion : ℕ) (pmm : PhysMmap) : PfaMeta :=
  (pmm.zipIdx.filter fun x => isValidRegion x.1).map fun x =>
    if x.2 = pfaRegion then (wholePages x.1).dropPages (pfaSize / 4096) else wholePages x.1

section Regions

variable {pfaSize pfaRegion : ℕ} {pmm : PhysMmap} {e : PhysMmapEntry}

theorem initPfaRegion_eq (hb : e.addr + e.len < 4294967296) (hv : isValidRegion e = true) :
    initPfaRegion e = wholePages e := by
  obtain ⟨hpa, hlen, hpos⟩ := alignedLen_of_valid hb hv
  rw [initPfaRegion, wholePages, hpa, hlen,
    show (e.addr + e.len - 4096 * ((e.addr + 4095) / 4096)) / 4096 =
      (e.addr + e.len) / 4096 - (e.addr + 4095) / 4096 by omega]

theorem hostRegion_eq (hb : e.addr + e.len < 4294967296) (hv : isValidRegion e = true)
    (hmod : pfaSize % 4096 = 0) (hle : pfaSize ≤ alignedLen e) :
    hostRegion pfaSize (initPfaRegion e) = (wholePages e).dropPages (pfaSize / 4096) := by
  obtain ⟨hpa, hlen, hpos⟩ := alignedLen_of_valid hb hv
  have hpages := nbPages_hostRegion (e := e) (by omega) hle
  rw [initPfaRegion_eq hb hv] at hpages ⊢
  simp only [hostRegion, PfaRegion.nbPages, PfaRegion.dropPages, wholePages,
    List.length_replicate, List.drop_replicate] at hpages ⊢
  rw [hpages, Word32.add_of_lt (by omega),
    show 4096 * (pfaSize / 4096) = pfaSize by omega]

/-- The regions of the model are the managed ones. -/
theorem reserveRegionsFrom_eq {region : ℕ} (hlt : ∀ e ∈ pmm, e.addr + e.len < 4294967296)
    (hmod : pfaSize % 4096 = 0)
    (hhost : ∀ i e, pmm[i]? = some e → region + i = pfaRegion → pfaSize ≤ alignedLen e) :
    (reserveRegionsFrom pfaSize pfaRegion region pmm).1 =
      ((pmm.zipIdx region).filter fun x => isValidRegion x.1).map fun x =>
        if x.2 = pfaRegion then (wholePages x.1).dropPages (pfaSize / 4096)
        else wholePages x.1 := by
  induction pmm generalizing region with
  | nil => rfl
  | cons e rest ih =>
    obtain ⟨he, hrest⟩ := List.forall_mem_cons.mp hlt
    have hhost' := host_tail hhost
    have hih := ih hrest hhost'
    rw [List.zipIdx_cons, List.filter_cons]
    by_cases hv : isValidRegion e = true
    · rw [if_pos hv, List.map_cons, ← hih]
      simp only [reserveRegionsFrom, if_pos hv]
      split_ifs with hr
      · rw [hostRegion_eq he hv hmod (hhost 0 e rfl hr)]
      · rw [initPfaRegion_eq he hv]
    · rw [if_neg hv, ← hih]
      simp only [reserveRegionsFrom, if_neg hv]

/-- There is one region for every valid entry, and the headers take no more than the size says. -/
theorem reserveRegionsFrom_room {region : ℕ} (hlt : ∀ e ∈ pmm, e.len < 4294967296)
    (hhost : ∀ i e, pmm[i]? = some e → region + i = pfaRegion →
      pfaSize / 4096 ≤ (initPfaRegion e).nbPages) :
    (reserveRegionsFrom pfaSize pfaRegion region pmm).1.length = pmm.countP isValidRegion ∧
      regionRoom (reserveRegionsFrom pfaSize pfaRegion region pmm).1 ≤ headerRoom pmm := by
  induction pmm generalizing region with
  | nil => exact ⟨rfl, le_rfl⟩
  | cons e rest ih =>
    obtain ⟨he, hrest⟩ := List.forall_mem_cons.mp hlt
    have hhost' := host_tail hhost
    obtain ⟨hlength, hroom⟩ := ih hrest hhost'
    by_cases hv : isValidRegion e = true
    · have hle := nbPages_regionAt_le he (hhost 0 e rfl)
      have hfrom : (reserveRegionsFrom pfaSize pfaRegion region (e :: rest)).1 =
          regionAt pfaSize pfaRegion region e ::
            (reserveRegionsFrom pfaSize pfaRegion (region + 1) rest).1 := by
        simp only [reserveRegionsFrom, if_pos hv, regionAt]
        split_ifs <;> rfl
      rw [Nat.add_zero] at hle
      simp only [hfrom, List.length_cons, hlength, List.countP_cons_of_pos hv, regionRoom,
        headerRoom, List.filter_cons_of_pos hv, List.map_cons, List.sum_cons] at hroom ⊢
      exact ⟨trivial, by omega⟩
    · simp only [reserveRegionsFrom, if_neg hv, List.countP_cons_of_neg hv, headerRoom,
        List.filter_cons_of_neg hv] at hlength hroom ⊢
      exact ⟨hlength, hroom⟩

end Regions

/-- **`reserve_regions` in memory.** All accesses lie inside the memory, and at its end the memory
holds the regions of the model. -/
theorem reserveRegionsAt_spec {pmm l r : PhysMmap} {host : PhysMmapEntry} (bytes : ℕ → ℕ)
    (hlt : ∀ e ∈ pmm, e.addr + e.len < 4294967296)
    (hd : pmm.Pairwise fun e f => Disjoint e.bytes f.bytes) (hpmm : pmm = l ++ host :: r)
    (hv : isValidRegion host = true) (hsize : pfaMetaSize pmm ≤ alignedLen host) :
    ∃ m, reserveRegionsAt pmm (pfaMetaSize pmm) l.length
        ⟨pageAlign host.addr, pfaMetaSize pmm, bytes⟩ =
          .ok (m, (reserveRegionsFrom (pfaMetaSize pmm) l.length 0 pmm).2) ∧
      m.pfa = pageAlign host.addr ∧ m.size = pfaMetaSize pmm ∧
      m.Layout (reserveRegionsFrom (pfaMetaSize pmm) l.length 0 pmm).1 := by
  obtain ⟨hroom, -⟩ := pfaMetaSize_eq hlt hd
  have hmod := pfaMetaSize_mod pmm
  have hhost := hlt host (by rw [hpmm]; simp)
  obtain ⟨hpa, hlen, hpos⟩ := alignedLen_of_valid hhost hv
  have hlength : l.length < pmm.length := by rw [hpmm]; simp
  generalize pfaMetaSize pmm = size at *
  have hself : ∀ i e, pmm[i]? = some e → 0 + i = l.length →
      size / 4096 ≤ (initPfaRegion e).nbPages := by
    intro i e he hi
    obtain rfl : i = l.length := by omega
    rw [hpmm, List.getElem?_append_right le_rfl, Nat.sub_self, List.getElem?_cons_zero] at he
    obtain rfl := Option.some.inj he
    rw [nbPages_initPfaRegion]
    exact Nat.div_le_div_right hsize
  have hwords : ∀ e ∈ pmm, e.addr < 4294967296 ∧ e.len < 4294967296 := fun e he => by
    have := hlt e he
    omega
  obtain ⟨hcount, hle⟩ := reserveRegionsFrom_room (fun e he => (hwords e he).2) hself
  obtain ⟨pfa, hpfa⟩ : ∃ pfa, pageAlign host.addr = pfa := ⟨_, rfl⟩
  rw [hpfa] at hpa ⊢
  -- the memory is cleared
  obtain ⟨m₁, hstore, hw₁, -⟩ := PfaMemory.store_spec (m := ⟨pfa, size, bytes⟩) (p := pfa) (v := 0)
    ⟨le_rfl, by simp only; omega⟩ (by omega)
  have hmemset := PfaMemory.memset_eq (m := m₁) (p := m₁.pfa) (n := size) (b := 0)
    ⟨le_rfl, by rw [hw₁.size_eq]⟩
  set m₂ : PfaMemory := { m₁ with bytes := Bytes.fill m₁.bytes m₁.pfa size 0 } with hm₂
  have hpfa₂ : m₂.pfa = pfa := hw₁.pfa_eq
  have hsize₂ : m₂.size = size := hw₁.size_eq
  have hzero : Bytes.word m₂.bytes m₂.pfa = 0 := Bytes.word_fill_zero le_rfl (by
    simp only [hm₂]
    omega)
  -- the regions are laid out behind the pointers
  have hskip := skipRegionPtrs_eq pmm (m₂.pfa + 4) (by omega)
  obtain ⟨m', hrun, hw', hcount', hshow⟩ := layoutRegions_spec
    (p := m₂.pfa + 4 + 4 * pmm.countP isValidRegion) (d := 0) hwords hself (by omega) hzero
    (by omega) (by omega)
  rw [Nat.zero_add, ← hcount] at hcount'
  refine ⟨m', ?_, hw'.pfa_eq.trans hpfa₂, hw'.size_eq.trans hsize₂, ?_⟩
  · rw [reserveRegionsAt, if_neg (by rw [pageOffset_eq]; omega), hstore, Run.ok_bind, hmemset,
      Run.ok_bind, hskip, hrun]
  · refine PfaMemory.Layout.of_shows (p := m₂.pfa + 4 + 4 * pmm.countP isValidRegion) ?_ ?_ ?_ ?_
    · rw [hw'.pfa_eq]
      exact hcount'
    · rw [hw'.pfa_eq]
      exact hshow
    · rw [hw'.pfa_eq, hcount]
    · rw [hw'.pfa_eq, hw'.size_eq]
      omega

/-! ## `pfa_init` -/

section Init

variable {pmm : PhysMmap} {pfaRegion : ℕ} {host : PhysMmapEntry}

/-- What `pfa_init` returns when a hosting region is found. -/
theorem pfaInit_of_host (hfind : findHostingRegion pmm (pfaMetaSize pmm) = some pfaRegion)
    (hhost : pmm[pfaRegion]? = some host) :
    pfaInit pmm = .ok (some ⟨pageAlign host.addr, pfaMetaSize pmm / 4096,
      (reserveRegionsFrom (pfaMetaSize pmm) pfaRegion 0 pmm).1,
      (reserveRegionsFrom (pfaMetaSize pmm) pfaRegion 0 pmm).2⟩) := by
  have hread : readCell pmm pfaRegion = .ok host := readCell_eq_ok.mpr hhost
  obtain ⟨hlt, -⟩ := List.getElem?_eq_some_iff.mp hhost
  have hres : reserveRegions pmm (pfaMetaSize pmm) pfaRegion =
      .ok (reserveRegionsFrom (pfaMetaSize pmm) pfaRegion 0 pmm) :=
    if_neg (by rw [pageOffset_eq, pfaMetaSize_mod]; omega)
  simp only [pfaInit, hfind, hread, Run.ok_bind, hres]
  rfl

/-- The state of the model after `pfa_init` is the one that the memory holds, and the map is left as
in the model. -/
theorem pfaInit_memory (hlt : ∀ e ∈ pmm, e.addr + e.len < 4294967296)
    (hd : pmm.Pairwise fun e f => Disjoint e.bytes f.bytes) {st : PfaInitState}
    (h : pfaInit pmm = .ok (some st)) (bytes : ℕ → ℕ) :
    ∃ pfaRegion m, reserveRegionsAt pmm (pfaMetaSize pmm) pfaRegion
        ⟨st.pfaMeta, 4096 * st.pfaMetaReservedPages, bytes⟩ = .ok (m, st.physMemMap) ∧
      m.pfa = st.pfaMeta ∧ m.Layout st.pfa := by
  obtain ⟨l, host, r, hpmm, hv, hsize, hmeta, hpages, hfrom⟩ := pfaInit_eq_some h
  obtain ⟨m, hrun, hpfa, -, hlayout⟩ := reserveRegionsAt_spec bytes hlt hd hpmm hv hsize
  have hmod := pfaMetaSize_mod pmm
  rw [hfrom] at hrun hlayout
  refine ⟨l.length, m, ?_, hpfa.trans hmeta.symm, hlayout⟩
  rw [hmeta, hpages, show 4096 * (pfaMetaSize pmm / 4096) = pfaMetaSize pmm by omega]
  exact hrun

end Init

/-- **The metadata fits into the space that is reserved for it.** For entries that do not overlap
and end below 4 GB, `reserve_regions` accesses `[pfa, pfa + pfa_size)` only. The hosting region has
the pages that it loses. In the end the pointers lead to the headers of the valid entries, in order
and with all of their pages free, the parts of the metadata lie apart, and no managed frame meets
them. -/
theorem pfa_metadata_fits (pmm : PhysMmap) (pfaRegion : ℕ) (host : PhysMmapEntry) (bytes : ℕ → ℕ)
    (hlt : ∀ e ∈ pmm, e.addr + e.len < 4294967296)
    (hd : pmm.Pairwise fun e f => Disjoint e.bytes f.bytes)
    (hfind : findHostingRegion pmm (pfaMetaSize pmm) = some pfaRegion)
    (hhost : pmm[pfaRegion]? = some host) :
    pfaMetaSize pmm / 4096 ≤ (initPfaRegion host).nbPages ∧
    ∃ m pmm', reserveRegionsAt pmm (pfaMetaSize pmm) pfaRegion
        ⟨pageAlign host.addr, pfaMetaSize pmm, bytes⟩ = .ok (m, pmm') ∧
      m.pfa = pageAlign host.addr ∧ m.size = pfaMetaSize pmm ∧
      m.Layout (managedRegions (pfaMetaSize pmm) pfaRegion pmm) ∧
      (∀ region ∈ managedRegions (pfaMetaSize pmm) pfaRegion pmm,
        ∀ c ∈ region.pagemap, c = .free) ∧
      ∀ region ∈ managedRegions (pfaMetaSize pmm) pfaRegion pmm, ∀ f, region.Covers f →
        Disjoint (Set.Ico f (f + 4096)) (Set.Ico m.pfa (m.pfa + m.size)) := by
  obtain ⟨l, host', r, hpmm, rfl, hv, hsize⟩ := findHostingRegion_eq_some hfind
  obtain rfl : host' = host := by
    rw [hpmm, List.getElem?_append_right le_rfl, Nat.sub_self, List.getElem?_cons_zero] at hhost
    exact Option.some.inj hhost
  have hmod := pfaMetaSize_mod pmm
  have hregions : (reserveRegionsFrom (pfaMetaSize pmm) l.length 0 pmm).1 =
      managedRegions (pfaMetaSize pmm) l.length pmm := by
    refine reserveRegionsFrom_eq hlt hmod fun i e he hi => ?_
    obtain rfl : i = l.length := by omega
    obtain rfl := Option.some.inj (he.symm.trans hhost)
    exact hsize
  have hinit := pfaInit_of_host hfind hhost
  obtain ⟨host₀, size₀, hpfa₀, -, hcovers⟩ := pfaInit_regionOf hlt hd hinit
  obtain ⟨m, hrun, hpfa, hsize', hlayout⟩ := reserveRegionsAt_spec bytes hlt hd hpmm hv
    hsize
  rw [hregions] at hlayout
  refine ⟨?_, m, _, hrun, hpfa, hsize', hlayout, ?_, ?_⟩
  · rw [nbPages_initPfaRegion]
    exact Nat.div_le_div_right hsize
  · rw [← hregions]
    exact pfaInit_free hinit
  · rw [← hregions]
    intro region hregion f hf
    simp only at hpfa₀
    rw [hpfa₀] at hregion
    obtain ⟨e, he, rfl⟩ := List.mem_map.mp hregion
    obtain ⟨he, hve⟩ := List.mem_filter.mp he
    have hmeta := ((hcovers e he hve f).mp hf).2
    simp only [PfaInitState.metaBytes, rangeBytes] at hmeta
    rwa [show 4096 * (pfaMetaSize pmm / 4096) = pfaMetaSize pmm by omega, ← hpfa, ← hsize'] at hmeta

/-- A map with a reserved entry and two entries of which the first hosts the metadata. -/
def twoRegions : PhysMmap :=
  [⟨0x100000, 0x400000, .reserved⟩, ⟨0x500800, 0x300000, .available⟩,
    ⟨0x1000000, 0x100000, .available⟩]

/-- The theorem for these entries. -/
theorem pfa_metadata_fits_two :
    ∃ m pmm', reserveRegionsAt twoRegions 4096 1 ⟨0x501000, 4096, fun _ => 0⟩ = .ok (m, pmm') ∧
      m.Layout (managedRegions 4096 1 twoRegions) := by
  have hsize : pfaMetaSize twoRegions = 4096 := by decide +kernel
  have halign : pageAlign 0x500800 = 0x501000 := by decide
  have hd : twoRegions.Pairwise fun e f => Disjoint e.bytes f.bytes := by
    simp [twoRegions, disjoint_bytes_iff]
  obtain ⟨-, m, pmm', hrun, -, -, hlayout, -⟩ := pfa_metadata_fits twoRegions 1
    ⟨0x500800, 0x300000, .available⟩ (fun _ => 0) (by decide) hd (by decide +kernel) rfl
  rw [hsize, halign] at hrun
  rw [hsize] at hlayout
  exact ⟨m, pmm', hrun, hlayout⟩

end Ahos
