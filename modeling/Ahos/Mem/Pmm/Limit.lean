import Ahos.Mem.Pmm.Exact
import Ahos.Mem.Pmm.Init

/-!
# Memory around the 4 GB limit

`fill_phys_mmap` and `find_pmm_location` cut a multiboot entry at 4 GB when its length has a high
word. They keep exactly the part below 4 GB of an entry, except in two cases: an entry that crosses
the limit with a short length is not cut, and for an entry that starts at `0` the cut length is `0`.

An entry that ends exactly at 4 GB has the 32-bit end `0`. The search of `reserve_region` does not
find a range in it, and `split_region` does not cut it, so that none of its parts can be reserved.
-/

namespace Ahos

open scoped List

/-! ## What is kept of the multiboot map -/

/-- The bytes of a multiboot entry below 4 GB. -/
def MultibootMmapEntry.lowBytes (e : MultibootMmapEntry) : Set ℕ :=
  e.bytes ∩ Set.Iio 4294967296

/-- What `fill_phys_mmap` makes of a multiboot entry that starts below 4 GB. -/
def lowEntry (e : MultibootMmapEntry) : PhysMmapEntry :=
  ⟨e.addr &&& 0xffffffff, segLen e, MmapType.ofCode e.type⟩

/-- The entry `f` and the segment of `find_pmm_location` are the part of `e` below 4 GB. -/
def KeepsLowPart (e : MultibootMmapEntry) (f : PhysMmapEntry) : Prop :=
  f.type = MmapType.ofCode e.type ∧ f.bytes = e.lowBytes ∧
    Set.Ico (e.addr &&& 0xffffffff) ((e.addr &&& 0xffffffff) + segLen e) = e.lowBytes

theorem fillPhysMmap_eq (mmap : List MultibootMmapEntry) :
    fillPhysMmap mmap = (mmap.filter fun e => e.addr < 4294967296).map lowEntry := by
  induction mmap with
  | nil => rfl
  | cons e mmap ih =>
    rw [fillPhysMmap, List.filterMap_cons, List.filter_cons]
    rw [fillPhysMmap] at ih
    by_cases hlt : e.addr < 4294967296
    · rw [if_neg (by rw [shiftRight_32_ne_zero]; omega), if_pos (by simpa using hlt),
        List.map_cons, ih]
      rfl
    · rw [if_pos (shiftRight_32_ne_zero.mpr (by omega)), if_neg (by simpa using hlt), ih]

/-- No entry is left out of a map below 4 GB. -/
theorem fillPhysMmap_of_lt {mmap : List MultibootMmapEntry} (h : ∀ e ∈ mmap, e.addr < 4294967296) :
    fillPhysMmap mmap = mmap.map lowEntry := by
  rw [fillPhysMmap_eq, List.filter_eq_self.mpr]
  intro e he
  exact decide_eq_true (h e he)

/-- The length of the segment: it is cut if and only if it has a high word. -/
theorem segLen_eq {e : MultibootMmapEntry} (h : e.addr < 4294967296) :
    segLen e = if e.len < 4294967296 then e.len else (4294967296 - e.addr) % 4294967296 := by
  unfold segLen
  by_cases hlen : e.len < 4294967296
  · rw [if_neg (by rw [shiftRight_32_ne_zero]; omega), and_ffffffff hlen, if_pos hlen]
  · rw [if_pos (shiftRight_32_ne_zero.mpr (by omega)), and_ffffffff h, if_neg hlen,
      Word32.sub_of_le (by omega) (by omega)]
    unfold Word32.add Word32.wrap
    omega

/-- One entry is kept exactly if it does not cross the limit with a short length, and does not
start at `0` with a long one. -/
theorem keepsLowPart_lowEntry {e : MultibootMmapEntry} (h : e.addr < 4294967296) :
    KeepsLowPart e (lowEntry e) ↔
      (e.len < 4294967296 → e.addr + e.len ≤ 4294967296) ∧
        (4294967296 ≤ e.len → 0 < e.addr) := by
  have hbytes : KeepsLowPart e (lowEntry e) ↔
      Set.Ico e.addr (e.addr + segLen e) = Set.Ico e.addr (e.addr + e.len) ∩
        Set.Iio 4294967296 := by
    simp only [KeepsLowPart, lowEntry, PhysMmapEntry.bytes, MultibootMmapEntry.lowBytes,
      MultibootMmapEntry.bytes, and_ffffffff h, true_and, and_self]
  rw [hbytes, segLen_eq h, Set.ext_iff]
  simp only [Set.mem_Ico, Set.mem_inter_iff, Set.mem_Iio]
  constructor
  · intro heq
    refine ⟨fun hlen => ?_, fun hlen => ?_⟩
    · -- the last byte of a short entry
      rw [if_pos hlen] at heq
      have := heq (e.addr + e.len - 1)
      omega
    · rw [if_neg (by omega)] at heq
      have := heq e.addr
      by_contra hzero
      omega
  · rintro ⟨hshort, hlong⟩ x
    split_ifs with hlen
    · have := hshort hlen
      omega
    · have := hlong (by omega)
      rw [Nat.mod_eq_of_lt (by omega)]
      omega

/-- **What `fill_phys_mmap` keeps.** The entries of the map are, in order, the parts below 4 GB of
the multiboot entries that start there, and the segments of `find_pmm_location` are the same
ranges, if and only if no entry crosses 4 GB with a length below `2 ^ 32` and none starts at `0`
with a greater one. -/
theorem fill_phys_mmap_exact (mmap : List MultibootMmapEntry) :
    List.Forall₂ KeepsLowPart (mmap.filter fun e => e.addr < 4294967296) (fillPhysMmap mmap) ↔
      ∀ e ∈ mmap, e.addr < 4294967296 →
        (e.len < 4294967296 → e.addr + e.len ≤ 4294967296) ∧
          (4294967296 ≤ e.len → 0 < e.addr) := by
  rw [fillPhysMmap_eq, List.forall₂_map_right_iff, List.forall₂_same]
  simp only [List.mem_filter, decide_eq_true_eq, and_imp]
  exact forall_congr' fun e => forall_congr' fun _ => forall_congr' fun h =>
    keepsLowPart_lowEntry h

/-- An entry across the limit is not cut, and an entry that starts at `0` is cut to nothing. -/
theorem fill_phys_mmap_across :
    fillPhysMmap [⟨20, 0xfffff000, 0x2000, 1⟩] = [⟨0xfffff000, 0x2000, .available⟩] ∧
      ¬ List.Forall₂ KeepsLowPart [⟨20, 0xfffff000, 0x2000, 1⟩]
        (fillPhysMmap [⟨20, 0xfffff000, 0x2000, 1⟩]) ∧
      fillPhysMmap [⟨20, 0, 0x100000000, 1⟩] = [⟨0, 0, .available⟩] ∧
      ¬ List.Forall₂ KeepsLowPart [⟨20, 0, 0x100000000, 1⟩]
        (fillPhysMmap [⟨20, 0, 0x100000000, 1⟩]) := by
  have hacross : fillPhysMmap [⟨20, 0xfffff000, 0x2000, 1⟩] =
      [⟨0xfffff000, 0x2000, .available⟩] := by decide +kernel
  have hzero : fillPhysMmap [⟨20, 0, 0x100000000, 1⟩] = [⟨0, 0, .available⟩] := by decide +kernel
  refine ⟨hacross, ?_, hzero, ?_⟩
  · rw [hacross]
    rintro (_ | ⟨⟨-, hbytes, -⟩, -⟩)
    -- the first byte above the limit
    have hin : 0x100000000 ∈ PhysMmapEntry.bytes ⟨0xfffff000, 0x2000, .available⟩ := by
      simp [PhysMmapEntry.bytes]
    rw [hbytes] at hin
    simp [MultibootMmapEntry.lowBytes] at hin
  · rw [hzero]
    rintro (_ | ⟨⟨-, hbytes, -⟩, -⟩)
    have hin : 0 ∈ MultibootMmapEntry.lowBytes ⟨20, 0, 0x100000000, 1⟩ := by
      simp [MultibootMmapEntry.lowBytes, MultibootMmapEntry.bytes]
    rw [← hbytes] at hin
    simp [PhysMmapEntry.bytes] at hin

/-! ## A region that ends at the limit -/

/-- The state of the map after calls of `reserve_region`. -/
def reserveCalls (g : PhysMemMap) (calls : List (ℕ × ℕ)) : PhysMemMap :=
  calls.foldl (fun g call => (reserveRegion g call.1 call.2).2) g

/-- An entry that is empty or ends at or below `a`. -/
def PhysMmapEntry.Below (f : PhysMmapEntry) (a : ℕ) : Prop :=
  (f.len = 0 ∧ f.addr < 4294967296) ∨ f.addr + f.len ≤ a

/-- A map with one region of type `t` from `a` up to 4 GB, and with all other entries below it or
empty. -/
structure EndsAtLimit (pmm : PhysMmap) (a : ℕ) (t : MmapType) : Prop where
  start : 0 < a ∧ a < 4294967296
  entries : ∃ rest, pmm.Perm (⟨a, 4294967296 - a, t⟩ :: rest) ∧ ∀ f ∈ rest, f.Below a

section Limit

variable {pmm l r : PhysMmap} {e : PhysMmapEntry} {a addr len : ℕ} {t : MmapType}

theorem endAddr_limit (h : 0 < a ∧ a < 4294967296) :
    PhysMmapEntry.endAddr ⟨a, 4294967296 - a, t⟩ = 0 := by
  simp only [PhysMmapEntry.endAddr, Word32.add, Word32.wrap]
  omega

/-- The addresses of the region have its type. -/
theorem EndsAtLimit.typeAt_eq (h : EndsAtLimit pmm a t) {x : ℕ} (hlo : a ≤ x)
    (hhi : x < 4294967296) : typeAt pmm x = some t := by
  obtain ⟨-, rest, hperm, hrest⟩ := h
  have hin : ⟨a, 4294967296 - a, t⟩ ∈ pmm := hperm.symm.subset (List.mem_cons_self ..)
  unfold typeAt
  cases hfind : pmm.find? fun e => e.addr ≤ x ∧ x < e.addr + e.len with
  | none =>
    have := List.find?_eq_none.mp hfind _ hin
    rw [decide_eq_true_eq] at this
    simp only at this
    omega
  | some e =>
    have hx := List.find?_some hfind
    rw [decide_eq_true_eq] at hx
    rcases List.mem_cons.mp (hperm.subset (List.mem_of_find?_eq_some hfind)) with rfl | he
    · rfl
    · have := hrest e he
      unfold PhysMmapEntry.Below at this
      omega

/-- Another entry than the region lies below it, and may be replaced by such entries. -/
theorem EndsAtLimit.replace (h : EndsAtLimit (l ++ e :: r) a t)
    (he : e ≠ ⟨a, 4294967296 - a, t⟩) :
    e.Below a ∧ ∀ parts : PhysMmap, (∀ f ∈ parts, f.Below a) →
      EndsAtLimit (l ++ parts ++ r) a t := by
  obtain ⟨hstart, rest, hperm, hrest⟩ := h
  have hcons := List.perm_middle.symm.trans hperm
  have hmem : (⟨a, 4294967296 - a, t⟩ : PhysMmapEntry) ∈ l ++ r :=
    (List.mem_cons.mp (hcons.symm.subset (List.mem_cons_self ..))).resolve_left (Ne.symm he)
  have hlr := List.perm_cons_erase hmem
  generalize (l ++ r).erase ⟨a, 4294967296 - a, t⟩ = others at hlr
  -- the region can be taken away on both sides
  have hothers : (e :: others).Perm rest :=
    (List.perm_cons _).mp ((List.Perm.swap ..).trans ((hlr.symm.cons e).trans hcons))
  refine ⟨hrest e (hothers.subset (List.mem_cons_self ..)), fun parts hparts => ⟨hstart,
    parts ++ others, ?_, fun f hf => ?_⟩⟩
  · calc l ++ parts ++ r
      _ = l ++ (parts ++ r) := List.append_assoc ..
      _ ~ parts ++ (l ++ r) := List.perm_append_comm_assoc ..
      _ ~ parts ++ (⟨a, 4294967296 - a, t⟩ :: others) := hlr.append_left parts
      _ ~ ⟨a, 4294967296 - a, t⟩ :: (parts ++ others) := List.perm_middle
  · rcases List.mem_append.mp hf with hf | hf
    · exact hparts f hf
    · exact hrest f (hothers.subset (List.mem_cons_of_mem _ hf))

/-- The parts of an entry below the region lie below it. -/
theorem below_parts (hstart : 0 < a ∧ a < 4294967296) (he : e.Below a) {x : ℕ} (hlo : e.addr < x)
    (hhi : x < e.endAddr) : (e.left x).Below a ∧ (e.right x).Below a := by
  have hend : e.endAddr = e.addr + e.len := by
    refine Word32.add_of_lt ?_
    rcases he with ⟨hlen, hlt⟩ | hle <;> omega
  have hright : Word32.sub e.len (x - e.addr) = e.addr + e.len - x := by
    rcases he with ⟨hlen, hlt⟩ | hle
    · omega
    · rw [Word32.sub_of_le (by omega) (by omega)]
      omega
  rcases he with ⟨hlen, hlt⟩ | hle
  · omega
  · refine ⟨.inr ?_, .inr ?_⟩
    · simp only [PhysMmapEntry.left]
      omega
    · simp only [PhysMmapEntry.right, hright]
      omega

/-- One search keeps the region: it is reserved as a whole, or it stays. -/
theorem EndsAtLimit.reserveStep (h : EndsAtLimit pmm a t) :
    (∀ ok pmm', Ahos.reserveStep pmm addr len = .inl (ok, pmm') →
      ∃ t', EndsAtLimit pmm' a t' ∧ (len ≠ 4294967296 - a → t' = t)) ∧
    ∀ pmm', Ahos.reserveStep pmm addr len = .inr pmm' → EndsAtLimit pmm' a t := by
  rcases exists_first_fit pmm addr len with hnone | ⟨l, e, r, rfl, hl, he⟩
  · rw [reserveStep_none hnone]
    refine ⟨fun ok pmm' heq => ?_, fun pmm' heq => by cases heq⟩
    obtain ⟨-, rfl⟩ := Prod.mk.inj (Sum.inl.inj heq)
    exact ⟨t, h, fun _ => rfl⟩
  rw [reserveStep_append hl he]
  by_cases hregion : e = ⟨a, 4294967296 - a, t⟩
  · -- the region has the 32-bit end `0`, and cannot be cut
    subst hregion
    obtain ⟨hstart, rest, hperm, hrest⟩ := h
    have hlr := (List.perm_cons _).mp (List.perm_middle.symm.trans hperm)
    have hreserved : EndsAtLimit (l ++ ⟨a, 4294967296 - a, .reserved⟩ :: r) a .reserved :=
      ⟨hstart, rest, List.perm_middle.trans (hlr.cons _), hrest⟩
    rw [endAddr_limit hstart]
    split_ifs with hfull
    · refine ⟨fun ok pmm' heq => ?_, fun pmm' heq => by cases heq⟩
      obtain ⟨-, rfl⟩ := Prod.mk.inj (Sum.inl.inj heq)
      exact ⟨_, hreserved, fun hne => absurd hfull.symm hne⟩
    · refine ⟨fun ok pmm' heq => ?_, fun pmm' heq => by cases heq⟩
      obtain ⟨-, rfl⟩ := Prod.mk.inj (Sum.inl.inj heq)
      exact ⟨t, ⟨hstart, rest, hperm, hrest⟩, fun _ => rfl⟩
    · omega
  · -- another entry is replaced by its parts
    obtain ⟨hbelow, hreplace⟩ := h.replace hregion
    split_ifs with hfull hcut
    · refine ⟨fun ok pmm' heq => ?_, fun pmm' heq => by cases heq⟩
      obtain ⟨-, rfl⟩ := Prod.mk.inj (Sum.inl.inj heq)
      have hreserved : ({ e with type := .reserved } : PhysMmapEntry).Below a := hbelow
      have := hreplace [{ e with type := .reserved }] (List.forall_mem_singleton.mpr hreserved)
      exact ⟨t, by simpa using this, fun _ => rfl⟩
    · refine ⟨fun ok pmm' heq => ?_, fun pmm' heq => by cases heq⟩
      obtain ⟨-, rfl⟩ := Prod.mk.inj (Sum.inl.inj heq)
      exact ⟨t, h, fun _ => rfl⟩
    · refine ⟨fun ok pmm' heq => (by cases heq), fun pmm' heq => ?_⟩
      obtain rfl := Sum.inr.inj heq
      have hparts := below_parts h.start hbelow (x := splitAddress e addr len) (by omega)
        (by omega)
      have := hreplace [e.left (splitAddress e addr len), e.right (splitAddress e addr len)]
        (by simpa using hparts)
      simpa using this

/-- A call of `reserve_region` keeps the region, and its type unless the call has its length. -/
theorem EndsAtLimit.reserveRegion {g : PhysMemMap} (h : EndsAtLimit g.entries a t) (addr len : ℕ) :
    (∃ t', EndsAtLimit (Ahos.reserveRegion g addr len).2.entries a t') ∧
      (len ≠ 4294967296 - a → EndsAtLimit (Ahos.reserveRegion g addr len).2.entries a t) := by
  have hentries : (Ahos.reserveRegion g addr len).2.entries = g.entries ∨
      (Ahos.reserveRegion g addr len).2.entries = (reserveLoop g.entries addr len).2 := by
    rw [reserveRegion_eq]
    by_cases hmax : g.nbReserved = maxReserved
    · rw [if_pos hmax]
      exact .inl rfl
    · rw [if_neg hmax]
      exact .inr rfl
  rcases hentries with heq | heq
  · rw [heq]
    exact ⟨⟨t, h⟩, fun _ => h⟩
  rw [heq]
  refine ⟨?_, fun hne => ?_⟩
  · refine reserveLoop_invariant (P := fun pmm => ∃ t', EndsAtLimit pmm a t') ?_ ?_ ⟨t, h⟩
    · rintro pmm ok pmm' ⟨t', hpmm⟩ hdone
      obtain ⟨t'', hpmm', -⟩ := hpmm.reserveStep.1 ok pmm' hdone
      exact ⟨t'', hpmm'⟩
    · rintro pmm pmm' ⟨t', hpmm⟩ hcut
      exact ⟨t', hpmm.reserveStep.2 pmm' hcut⟩
  · refine reserveLoop_invariant (P := fun pmm => EndsAtLimit pmm a t) ?_ ?_ h
    · intro pmm ok pmm' hpmm hdone
      obtain ⟨t', hpmm', htype⟩ := hpmm.reserveStep.1 ok pmm' hdone
      exact htype hne ▸ hpmm'
    · intro pmm pmm' hpmm hcut
      exact hpmm.reserveStep.2 pmm' hcut

/-- Any calls keep the region. -/
theorem EndsAtLimit.reserveCalls {g : PhysMemMap} (h : EndsAtLimit g.entries a t)
    (calls : List (ℕ × ℕ)) : ∃ t', EndsAtLimit (Ahos.reserveCalls g calls).entries a t' := by
  induction calls generalizing g t with
  | nil => exact ⟨t, h⟩
  | cons call calls ih =>
    obtain ⟨t', h'⟩ := (h.reserveRegion call.1 call.2).1
    exact ih h'

/-- No range that ends below the limit is found at or above `a`. -/
theorem EndsAtLimit.not_fits (h : EndsAtLimit pmm a t) (hlo : a ≤ addr) (hlen : 0 < len)
    (hend : addr + len < 4294967296) : ∀ f ∈ pmm, ¬ f.Fits addr len := by
  obtain ⟨hstart, rest, hperm, hrest⟩ := h
  rintro f hf ⟨-, hle, hfit⟩
  rw [Word32.add_of_lt hend] at hfit
  rcases List.mem_cons.mp (hperm.subset hf) with rfl | hf
  · rw [endAddr_limit hstart] at hfit
    omega
  · have hbelow : f.endAddr ≤ f.addr + f.len := Nat.mod_le ..
    rcases hrest f hf with ⟨hzero, -⟩ | hle' <;> omega

/-- The entry that `fill_phys_mmap` makes of a multiboot entry that ends at or above 4 GB. -/
theorem endsAtLimit_fillPhysMmap {l r : List MultibootMmapEntry} {e : MultibootMmapEntry}
    (hlo : 0 < e.addr) (hhi : e.addr < 4294967296)
    (hlen : 4294967296 ≤ e.len ∨ e.addr + e.len = 4294967296)
    (hdisj : ∀ f ∈ l ++ r, Disjoint f.bytes e.bytes) :
    EndsAtLimit (fillPhysMmap (l ++ e :: r)) e.addr (MmapType.ofCode e.type) := by
  have hregion : lowEntry e = ⟨e.addr, 4294967296 - e.addr, MmapType.ofCode e.type⟩ := by
    rw [lowEntry, segLen_eq hhi, and_ffffffff hhi]
    congr 1
    split_ifs with hshort
    · omega
    · exact Nat.mod_eq_of_lt (by omega)
  refine ⟨⟨hlo, hhi⟩, fillPhysMmap (l ++ r), ?_, fun f hf => ?_⟩
  · simp only [fillPhysMmap_eq, List.filter_append, List.filter_cons_of_pos (p := fun
      e : MultibootMmapEntry => decide (e.addr < 4294967296)) (decide_eq_true hhi),
      List.map_append, List.map_cons, hregion]
    exact List.perm_middle
  · rw [fillPhysMmap_eq, List.mem_map] at hf
    obtain ⟨m, hm, rfl⟩ := hf
    obtain ⟨hm, hlt⟩ := List.mem_filter.mp hm
    rw [decide_eq_true_eq] at hlt
    have hd := hdisj m hm
    rw [MultibootMmapEntry.bytes, MultibootMmapEntry.bytes, Set.Ico_disjoint_Ico] at hd
    simp only [PhysMmapEntry.Below, lowEntry, segLen_eq hlt, and_ffffffff hlt]
    split_ifs <;> omega

end Limit

/-- **Memory that ends at 4 GB cannot be reserved in parts.** As long as an available region of the
multiboot map that ends at 4 GB is in the map, whatever was reserved before, no call reserves a
proper part of it exactly, and a part that ends below the limit is refused. -/
theorem reserve_region_at_limit (l r : List MultibootMmapEntry) (e : MultibootMmapEntry)
    (calls : List (ℕ × ℕ)) (g : PhysMemMap) (addr len : ℕ) (hlo : 0x100000 ≤ e.addr)
    (hhi : e.addr < 4294967296) (hclip : 4294967296 ≤ e.len ∨ e.addr + e.len = 4294967296)
    (hdisj : ∀ f ∈ l ++ r, Disjoint f.bytes e.bytes)
    (hg : g = reserveCalls ⟨fillPhysMmap (l ++ e :: r), 0⟩ calls)
    (havail : ⟨e.addr, 4294967296 - e.addr, .available⟩ ∈ g.entries)
    (hlen : 0 < len) (hstart : e.addr ≤ addr) (hend : addr + len ≤ 4294967296)
    (hproper : len ≠ 4294967296 - e.addr) :
    ¬ ((reserveRegion g addr len).1 = true ∧
        ∀ x, typeAt (reserveRegion g addr len).2.entries x =
          if addr ≤ x ∧ x < addr + len then some .reserved else typeAt g.entries x) ∧
      (addr + len < 4294967296 → reserveRegion g addr len = (false, g)) := by
  obtain ⟨t, hlimit⟩ :=
    (endsAtLimit_fillPhysMmap (by omega) hhi hclip hdisj).reserveCalls
      (g := ⟨fillPhysMmap (l ++ e :: r), 0⟩) calls
  rw [← hg] at hlimit
  -- the region is the entry of `g` that is still available
  obtain rfl : t = .available := by
    obtain ⟨-, rest, hperm, hrest⟩ := hlimit
    rcases List.mem_cons.mp (hperm.subset havail) with heq | hin
    · exact (congrArg PhysMmapEntry.type heq).symm
    · have := hrest _ hin
      simp only [PhysMmapEntry.Below] at this
      omega
  refine ⟨?_, fun hbelow => ?_⟩
  · rintro ⟨-, htypes⟩
    have hkept := ((hlimit.reserveRegion addr len).2 hproper).typeAt_eq hstart (by omega)
    rw [htypes addr, if_pos ⟨le_rfl, by omega⟩] at hkept
    cases hkept
  · have hfail : reserveLoop g.entries addr len = (false, g.entries) := by
      rw [reserveLoop_eq, reserveStep_none (hlimit.not_fits hstart hlen hbelow)]
    rw [reserveRegion_eq, hfail]
    exact ite_self _

/-- The theorem for 4 GB of memory from 1 MB on. -/
theorem reserve_region_at_limit_page :
    ¬ (reserveRegion ⟨fillPhysMmap [⟨20, 0x100000, 0x100000000, 1⟩], 0⟩ 0x200000 0x1000).1 =
      true := by
  have hrefused := (reserve_region_at_limit [] [] ⟨20, 0x100000, 0x100000000, 1⟩ []
    ⟨fillPhysMmap [⟨20, 0x100000, 0x100000000, 1⟩], 0⟩ 0x200000 0x1000 le_rfl (by simp)
    (.inl le_rfl) (by simp) rfl (by decide +kernel) (by omega) (by simp) (by omega)
    (by simp)).2 (by omega)
  rw [hrefused]
  exact Bool.false_ne_true

/-- A page of this memory is not reserved, although it is available and reservations are left. -/
theorem reserve_region_at_limit_refused :
    fillPhysMmap [⟨20, 0x100000, 0x100000000, 1⟩] =
        [⟨0x100000, 0xfff00000, .available⟩] ∧
      reserveRegion ⟨[⟨0x100000, 0xfff00000, .available⟩], 0⟩ 0x200000 0x1000 =
        (false, ⟨[⟨0x100000, 0xfff00000, .available⟩], 0⟩) := by
  refine ⟨by decide +kernel, ?_⟩
  have hstep : reserveStep [⟨0x100000, 0xfff00000, .available⟩] 0x200000 0x1000 =
      .inl (false, [⟨0x100000, 0xfff00000, .available⟩]) := by decide +kernel
  rw [reserveRegion, if_neg (by decide), reserveLoop_eq, hstep]

end Ahos
