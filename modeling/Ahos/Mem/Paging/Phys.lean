import Ahos.Mem.Paging.Tables
import Mathlib.Data.List.Pairwise

/-!
# Mapping at the level of physical memory

`mapPhys` and `unmapPhys` say what `map_page` and `unmap_page` do to physical memory
and to the page frame allocator, without saying how the code reaches the tables. As
long as the frames of the directory and of the tables are exclusively owned, the code
computes them in both of its modes.
-/

namespace Ahos

/-! ## Writing a whole table -/

/-- The first `n` entries of a table are `word`. -/
@[irreducible] def fillWords (mem : ℕ → ℕ) (table word n : ℕ) : ℕ → ℕ :=
  (List.range n).foldl (fun m i => Function.update m (table + 4 * i) word) mem

/-- A page table in which every entry is `word`. -/
def fillTable (mem : ℕ → ℕ) (table word : ℕ) : ℕ → ℕ := fillWords mem table word 1024

private theorem foldl_update_out {mem : ℕ → ℕ} {table word a : ℕ} {is : List ℕ}
    (h : ∀ i ∈ is, a ≠ table + 4 * i) :
    is.foldl (fun m i => Function.update m (table + 4 * i) word) mem a = mem a := by
  induction is generalizing mem with
  | nil => rfl
  | cons i is ih =>
    rw [List.foldl_cons, ih fun j hj => h j (List.mem_cons_of_mem _ hj)]
    exact Function.update_of_ne (h i (List.mem_cons_self ..)) _ _

private theorem foldl_update_in {mem : ℕ → ℕ} {table word i : ℕ} {is : List ℕ} (h : i ∈ is) :
    is.foldl (fun m i => Function.update m (table + 4 * i) word) mem (table + 4 * i) = word := by
  induction is generalizing mem with
  | nil => cases h
  | cons j is ih =>
    rw [List.foldl_cons]
    by_cases hi : i ∈ is
    · exact ih hi
    · obtain rfl : i = j := (List.mem_cons.mp h).resolve_right hi
      rw [foldl_update_out]
      · exact Function.update_self ..
      · rintro k hk heq
        obtain rfl : i = k := by omega
        exact hi hk

theorem fillTable_in {mem : ℕ → ℕ} {table word i : ℕ} (h : i < 1024) :
    fillTable mem table word (table + 4 * i) = word := by
  rw [fillTable, fillWords]
  exact foldl_update_in (List.mem_range.mpr h)

/-- Filling a table changes its entries only. -/
theorem fillTable_ne {mem : ℕ → ℕ} {table word a : ℕ} (h : ∀ i < 1024, a ≠ table + 4 * i) :
    fillTable mem table word a = mem a := by
  rw [fillTable, fillWords]
  exact foldl_update_out fun i hi => h i (List.mem_range.mp hi)

/-- Filling a table does not touch the other frames. -/
theorem fillTable_out {mem : ℕ → ℕ} {table word a : ℕ} (h : a < table ∨ table + 4096 ≤ a) :
    fillTable mem table word a = mem a :=
  fillTable_ne fun i hi => by omega

/-! ## Ownership -/

/-- The directory at `dir` maps itself, and its frame and the frames of the page tables are
owned: they are outstanding allocations, next to the allocations `rest` of others. -/
structure PagingInv (mem : ℕ → ℕ) (pfa : PfaMeta) (dir : ℕ) (rest : List (ℕ × ℕ)) : Prop where
  owned : PfaInv pfa ((dir, 1) :: (tables mem dir ++ rest))
  self : SelfMapped mem dir

/-- An outstanding frame is the frame of a page. -/
theorem PfaInv.frame {pfa : PfaMeta} {out : List (ℕ × ℕ)} (h : PfaInv pfa out) {p n : ℕ}
    (hp : (p, n) ∈ out) : p % 4096 = 0 ∧ p + 4096 * n < 4294967296 ∧ p ≠ 0 := by
  obtain ⟨hn, hne, hmod, r, -, -, hhi, hlt⟩ := h.bounds hp
  exact ⟨hmod, by omega, hne⟩

theorem PfaInv.perm {pfa : PfaMeta} {out out' : List (ℕ × ℕ)} (h : PfaInv pfa out)
    (hperm : out.Perm out') : PfaInv pfa out' := by
  obtain ⟨hg, rs, hrs, hlive⟩ := h
  exact ⟨hg, rs, hrs, hlive.trans hperm⟩

section Frames

variable {mem : ℕ → ℕ} {pfa : PfaMeta} {dir d : ℕ} {rest : List (ℕ × ℕ)}

/-- A table does not share its frame with the directory. -/
theorem PagingInv.table_dir (h : PagingInv mem pfa dir rest) (hd : d < 1023)
    (hp : isPresent (pde mem dir d) = true) :
    tableAddr mem dir d + 4096 ≤ dir ∨ dir + 4096 ≤ tableAddr mem dir d := by
  have hap := (List.pairwise_cons.mp h.owned.pairwise).1 _
    (List.mem_append_left rest (mem_tables hd hp))
  simp only [Apart] at hap
  omega

/-- Two tables do not share a frame. -/
theorem PagingInv.table_table (h : PagingInv mem pfa dir rest) {d' : ℕ} (hd : d < 1023)
    (hd' : d' < 1023) (hne : d ≠ d') (hp : isPresent (pde mem dir d) = true)
    (hp' : isPresent (pde mem dir d') = true) :
    tableAddr mem dir d + 4096 ≤ tableAddr mem dir d' ∨
      tableAddr mem dir d' + 4096 ≤ tableAddr mem dir d := by
  have hpw := (List.pairwise_append.mp (List.pairwise_cons.mp h.owned.pairwise).2).1
  rw [tables, List.pairwise_map] at hpw
  have hmem : ∀ e, e < 1023 → isPresent (pde mem dir e) = true →
      e ∈ (List.range 1023).filter fun d => isPresent (pde mem dir d) := fun e he hpe =>
    List.mem_filter.mpr ⟨List.mem_range.mpr he, hpe⟩
  have hsymm : Std.Symm fun a b => Apart (tableAddr mem dir a, 1) (tableAddr mem dir b, 1) :=
    ⟨fun _ _ h => Or.symm h⟩
  have hap := hpw.forall (hmem d hd hp) (hmem d' hd' hp') hne
  simp only [Apart] at hap
  omega

end Frames

/-! ## The physical functions -/

/-- The directory entry that `new_page_table` writes. -/
def newPde (flags table : ℕ) : ℕ := (flags &&& pgConsistentMask) ||| maskPresent ||| table

/-- The memory after `new_page_table` has linked and initialised a table for entry `d`. -/
def newTableMem (mem : ℕ → ℕ) (dir d flags table : ℕ) : ℕ → ℕ :=
  fillTable (Function.update mem (dir + 4 * d) (newPde flags table)) table
    (flags &&& (0xffffffff - maskPresent))

/-- `map_page` on physical memory. -/
def mapPhys (mem : ℕ → ℕ) (pfa : PfaMeta) (dir physAddr virtAddr flags : ℕ) :
    Outcome (Bool × (ℕ → ℕ) × PfaMeta) :=
  if pageOffset physAddr ≠ 0 ∨ pageOffset virtAddr ≠ 0 ∨ flags &&& maskAddr ≠ 0 then
    .ok (false, mem, pfa)
  else if isPresent (pde mem dir (pdIndex virtAddr)) then
    if flags &&& pgConsistentMask ≠ pde mem dir (pdIndex virtAddr) &&& pgConsistentMask then
      .ok (false, mem, pfa)
    else if isPresent (mem (tableAddr mem dir (pdIndex virtAddr) + 4 * ptIndex virtAddr)) then
      panic "overwriting an already present mapping!"
    else
      .ok (true, Function.update mem (tableAddr mem dir (pdIndex virtAddr) + 4 * ptIndex virtAddr)
        (physAddr ||| flags ||| maskPresent), pfa)
  else do
    let (table, pfa) ← pfaAlloc pfa 1
    if table = 0 then
      panic "failed to create new page table"
    else
      .ok (true, Function.update (newTableMem mem dir (pdIndex virtAddr) flags table)
        (table + 4 * ptIndex virtAddr) (physAddr ||| flags ||| maskPresent), pfa)

/-- `unmap_page` on physical memory. -/
def unmapPhys (mem : ℕ → ℕ) (dir virtAddr : ℕ) : Bool × (ℕ → ℕ) :=
  let a := tableAddr mem dir (pdIndex virtAddr) + 4 * ptIndex virtAddr
  if pageOffset virtAddr = 0 ∧ isPresent (pde mem dir (pdIndex virtAddr)) ∧ isPresent (mem a) then
    (true, Function.update mem a (mem a &&& (0xffffffff - (maskPresent ||| maskAddr))))
  else (false, mem)

/-- What a call of `map_page` that returns can have done: nothing, or it has written the entry of
the page, into the table that the directory has for it or into a new one. -/
theorem mapPhys_cases {mem mem' : ℕ → ℕ} {pfa pfa' : PfaMeta} {dir phys virt flags : ℕ} {ret : Bool}
    (h : mapPhys mem pfa dir phys virt flags = .ok (ret, mem', pfa')) :
    (ret = false ∧ mem' = mem ∧ pfa' = pfa) ∨
    (ret = true ∧ (pageOffset phys = 0 ∧ pageOffset virt = 0 ∧ flags &&& maskAddr = 0) ∧
      ((isPresent (pde mem dir (pdIndex virt)) = true ∧
          flags &&& pgConsistentMask = pde mem dir (pdIndex virt) &&& pgConsistentMask ∧
          isPresent (mem (tableAddr mem dir (pdIndex virt) + 4 * ptIndex virt)) = false ∧
          mem' = Function.update mem (tableAddr mem dir (pdIndex virt) + 4 * ptIndex virt)
            (phys ||| flags ||| maskPresent) ∧ pfa' = pfa) ∨
        (isPresent (pde mem dir (pdIndex virt)) = false ∧
          ∃ table, pfaAlloc pfa 1 = .ok (table, pfa') ∧ table ≠ 0 ∧
            mem' = Function.update (newTableMem mem dir (pdIndex virt) flags table)
              (table + 4 * ptIndex virt) (phys ||| flags ||| maskPresent)))) := by
  unfold mapPhys at h
  split_ifs at h with hbad hp hcons hpte
  · obtain ⟨rfl, rfl, rfl⟩ := Prod.mk.inj (Except.ok.inj h) |>.imp_right Prod.mk.inj
    exact .inl ⟨rfl, rfl, rfl⟩
  · obtain ⟨rfl, rfl, rfl⟩ := Prod.mk.inj (Except.ok.inj h) |>.imp_right Prod.mk.inj
    exact .inl ⟨rfl, rfl, rfl⟩
  · cases h
  all_goals
    simp only [ne_eq, not_or, not_not] at hbad
  · obtain ⟨rfl, rfl, rfl⟩ := Prod.mk.inj (Except.ok.inj h) |>.imp_right Prod.mk.inj
    rw [Bool.not_eq_true] at hpte
    exact .inr ⟨rfl, hbad, .inl ⟨hp, not_not.mp hcons, hpte, rfl, rfl⟩⟩
  · obtain ⟨⟨table, pfa₁⟩, halloc, h⟩ := Run.bind_eq_ok.mp h
    simp only at h
    split_ifs at h with hne
    · cases h
    obtain ⟨rfl, rfl, rfl⟩ := Prod.mk.inj (Except.ok.inj h) |>.imp_right Prod.mk.inj
    rw [Bool.not_eq_true] at hp
    exact .inr ⟨rfl, hbad, .inr ⟨hp, table, halloc, hne, rfl⟩⟩

/-! ## The code computes them -/

section Code

variable {s : Machine} {dir : ℕ} {rest : List (ℕ × ℕ)}

theorem pdIndex_lt {virt : ℕ} (h : virt < 0xffc00000) : pdIndex virt < 1023 := by
  rw [pdIndex_eq]
  omega

theorem ptIndex_lt (virt : ℕ) : ptIndex virt < 1024 := by
  rw [ptIndex_eq]
  omega

/-- Filling the table of a present entry through the code's view of it. -/
theorem foldlM_store_table {d table : ℕ} (view word : ℕ) {is : List ℕ} (his : ∀ i ∈ is, i < 1024)
    (hview : view = s.tableView d table)
    (hr : Reaches s dir) (hself : SelfMapped s.mem dir) (hd : d < 1023)
    (hp : isPresent (pde s.mem dir d) = true) (htable : tableAddr s.mem dir d = table)
    (hapart : table + 4096 ≤ dir ∨ dir + 4096 ≤ table) :
    is.foldlM (fun s i => s.store (view + 4 * i) word) s =
      .ok { s with mem := is.foldl (fun m i => Function.update m (table + 4 * i) word) s.mem } := by
  induction is generalizing s with
  | nil => rfl
  | cons i is ih =>
    have hi := his i (List.mem_cons_self ..)
    have hout : ∀ e, e < 1024 →
        pde (Function.update s.mem (table + 4 * i) word) dir e = pde s.mem dir e := by
      intro e he
      exact Function.update_of_ne (by omega) _ _
    have hstore := store_pte word hr hself (show d < 1024 by omega) hi hp
    rw [htable, ← hview] at hstore
    rw [List.foldlM_cons, hstore, Run.ok_bind]
    refine ih (s := { s with mem := Function.update s.mem (table + 4 * i) word })
      (fun j hj => his j (List.mem_cons_of_mem _ hj)) hview (hr.update _ _) ⟨?_, ?_⟩ ?_ ?_
    · rw [hout 1023 (by omega)]
      exact hself.present
    · rw [tableAddr, hout 1023 (by omega)]
      exact hself.addr
    · rw [hout d (by omega)]
      exact hp
    · rw [tableAddr, hout d (by omega)]
      exact htable

/-- The entry for a new table is present and points to it. -/
theorem newPde_spec (flags : ℕ) {table : ℕ} (hmod : table % 4096 = 0)
    (hlt : table < 4294967296) :
    isPresent (newPde flags table) = true ∧ newPde flags table &&& maskAddr = table := by
  have hflags : (flags &&& pgConsistentMask) ||| maskPresent < 4096 :=
    or_present_lt (lt_of_le_of_lt Nat.and_le_right (by decide))
  have hodd := or_present_mod (flags &&& pgConsistentMask)
  rw [newPde, pde_eq hmod, isPresent_iff]
  exact ⟨by omega, entry_addr hmod hlt hflags⟩

/-- The directory after `new_page_table`. -/
theorem pde_newTableMem (mem : ℕ → ℕ) (d flags : ℕ) {table : ℕ}
    (hapart : table + 4096 ≤ dir ∨ dir + 4096 ≤ table) {e : ℕ} (he : e < 1024) :
    pde (newTableMem mem dir d flags table) dir e =
      if e = d then newPde flags table else pde mem dir e := by
  rw [pde, newTableMem, fillTable_out (by omega)]
  split_ifs with hed
  · rw [hed]
    exact Function.update_self ..
  · exact Function.update_of_ne (by omega) _ _

/-- The frame that the allocator returns for a new table is apart from the directory and the
other tables. -/
theorem PagingInv.new_frame {mem : ℕ → ℕ} {pfa pfa' : PfaMeta} {table : ℕ}
    (h : PagingInv mem pfa dir rest) (halloc : pfaAlloc pfa 1 = .ok (table, pfa'))
    (hne : table ≠ 0) :
    PfaInv pfa' ((table, 1) :: (dir, 1) :: (tables mem dir ++ rest)) ∧
      table % 4096 = 0 ∧ table + 4096 < 4294967296 ∧
      (table + 4096 ≤ dir ∨ dir + 4096 ≤ table) := by
  obtain ⟨-, hinv⟩ := h.owned.of_alloc halloc
  rw [if_neg (show table ≠ badPage from hne)] at hinv
  obtain ⟨hmod, hlt, -⟩ := hinv.frame (List.mem_cons_self ..)
  have hap := (List.pairwise_cons.mp hinv.pairwise).1 (dir, 1) (List.mem_cons_self ..)
  simp only [Apart] at hap
  exact ⟨hinv, hmod, by omega, by omega⟩

/-- `new_page_table` on physical memory. -/
theorem newPageTable_eq {d : ℕ} (flags : ℕ) (hr : Reaches s dir) (hinv : PagingInv s.mem s.pfa dir rest)
    (hd : d < 1023) (hp : isPresent (pde s.mem dir d) = false) {table : ℕ} {pfa : PfaMeta}
    (halloc : pfaAlloc s.pfa 1 = .ok (table, pfa)) (hne : table ≠ 0) :
    newPageTable s d flags = .ok (s.tableView d table,
      { s with pfa := pfa, mem := newTableMem s.mem dir d flags table }) := by
  obtain ⟨-, hmod, hlt, hapart⟩ := hinv.new_frame halloc hne
  obtain ⟨hpres, haddr⟩ := newPde_spec flags hmod (by omega)
  set s₁ : Machine := { s with pfa := pfa }
  set s₂ : Machine := { s₁ with mem := Function.update s.mem (dir + 4 * d) (newPde flags table) }
  have hr₁ : Reaches s₁ dir := hr.update s.mem pfa
  have hnew : pde s₂.mem dir d = newPde flags table := Function.update_self ..
  have hlast : pde s₂.mem dir 1023 = pde s.mem dir 1023 := Function.update_of_ne (by omega) _ _
  have hself : SelfMapped s₂.mem dir :=
    ⟨by rw [hlast]; exact hinv.self.present, by rw [tableAddr, hlast]; exact hinv.self.addr⟩
  have hstore : s₁.store (s₁.pageDirectory + 4 * d) (newPde flags table) = .ok s₂ :=
    store_pde hr₁ hinv.self (by omega)
  have hfill := foldlM_store_table (s := s₂) (s.tableView d table)
    (flags &&& (0xffffffff - maskPresent))
    (fun i hi => List.mem_range.mp hi) rfl (hr₁.update _ _) hself hd (by rw [hnew, hpres])
    (by rw [tableAddr, hnew, haddr]) hapart
  have hview : (if s₂.pagingEnabled then windowTable d else table) = s.tableView d table := rfl
  unfold newPageTable
  rw [load_pde hr hinv.self (by omega), Run.ok_bind, hp]
  simp only [Bool.false_eq_true, if_false, halloc, Run.ok_bind, if_neg hne]
  change (s₁.store _ (newPde flags table) >>= _) = _
  rw [hstore, Run.ok_bind, hview, hfill, Run.ok_bind, newTableMem, fillTable, fillWords]
  rfl

/-- **The code maps as the physical function says**, in both modes. -/
theorem mapPage_eq {phys virt flags : ℕ} (hr : Reaches s dir)
    (hinv : PagingInv s.mem s.pfa dir rest) (hv : virt < 4294967296) :
    mapPage s phys virt flags = (mapPhys s.mem s.pfa dir phys virt flags).map
      fun r => (r.1, { s with mem := r.2.1, pfa := r.2.2 }) := by
  have hd : pdIndex virt < 1024 := by
    rw [pdIndex_eq]
    omega
  have ht := ptIndex_lt virt
  have hpde := load_pde hr hinv.self hd
  by_cases hbad : pageOffset phys ≠ 0 ∨ pageOffset virt ≠ 0 ∨ flags &&& maskAddr ≠ 0
  · simp only [mapPage, mapPhys, if_pos hbad]
    rfl
  by_cases hp : isPresent (pde s.mem dir (pdIndex virt)) = true
  · have hload := load_pte hr hinv.self hd ht hp
    have hstore := store_pte (phys ||| flags ||| maskPresent) hr hinv.self
      hd ht hp
    have hview := s.tableView_eq dir (pdIndex virt)
    by_cases hcons : flags &&& pgConsistentMask ≠ pde s.mem dir (pdIndex virt) &&& pgConsistentMask
    · simp only [mapPage, mapPhys, if_neg hbad, hpde, Run.ok_bind, if_pos hp, if_pos hcons]
      rfl
    · by_cases hpte : isPresent
          (s.mem (tableAddr s.mem dir (pdIndex virt) + 4 * ptIndex virt)) = true
      · simp only [mapPage, mapPhys, if_neg hbad, hpde, Run.ok_bind, if_pos hp, if_neg hcons, hview,
          hload, if_pos hpte]
        rfl
      · simp only [mapPage, mapPhys, if_neg hbad, hpde, Run.ok_bind, if_pos hp, if_neg hcons, hview,
          hload, if_neg hpte, hstore]
        rfl
  · obtain ⟨table, pfa, halloc, -, -⟩ := pfaAlloc_spec hinv.owned 1
    by_cases hne : table = 0
    · subst hne
      have hnew : newPageTable s (pdIndex virt) flags = .ok (0, { s with pfa := pfa }) := by
        simp only [newPageTable, hpde, Run.ok_bind, if_neg hp, halloc, if_true]
        rfl
      simp only [mapPage, mapPhys, if_neg hbad, hpde, if_neg hp, hnew, halloc, Run.ok_bind, if_true]
      rfl
    · -- the new table is reached like any other table; the last entry of the directory is present
      have hd : pdIndex virt < 1023 := by
        have hlast : pdIndex virt ≠ 1023 := fun h => hp (h ▸ hinv.self.present)
        omega
      have hnew := newPageTable_eq flags hr hinv hd (by simpa using hp) halloc hne
      have hview : s.tableView (pdIndex virt) table ≠ 0 := by
        unfold Machine.tableView windowTable
        split_ifs
        · omega
        · exact hne
      obtain ⟨-, hmod, hlt, hapart⟩ := hinv.new_frame halloc hne
      obtain ⟨hpres, haddr⟩ := newPde_spec flags hmod (by omega)
      set s₁ : Machine :=
        { s with pfa := pfa, mem := newTableMem s.mem dir (pdIndex virt) flags table }
      have hentry := fun e (he : e < 1024) =>
        pde_newTableMem s.mem (pdIndex virt) flags hapart he
      have hlast : pde s₁.mem dir 1023 = pde s.mem dir 1023 := by
        rw [hentry 1023 (by omega), if_neg (by omega)]
      have hthis : pde s₁.mem dir (pdIndex virt) = newPde flags table := by
        rw [hentry _ (by omega), if_pos rfl]
      have htable : tableAddr s₁.mem dir (pdIndex virt) = table := by
        rw [tableAddr, hthis, haddr]
      have hr₁ : Reaches s₁ dir := hr.update _ pfa
      have hstore := store_pte (s := s₁) (phys ||| flags ||| maskPresent) hr₁ ⟨by
        rw [hlast]
        exact hinv.self.present, by
        rw [tableAddr, hlast]
        exact hinv.self.addr⟩ (show pdIndex virt < 1024 by omega) ht (by rw [hthis, hpres])
      rw [htable, show s₁.tableView (pdIndex virt) table = s.tableView (pdIndex virt) table from rfl]
        at hstore
      simp only [mapPage, mapPhys, if_neg hbad, hpde, if_neg hp, hnew, halloc, Run.ok_bind,
        if_neg hview, if_neg hne, hstore]
      rfl

/-- **The code unmaps as the physical function says**, in both modes. -/
theorem unmapPage_eq {virt : ℕ} (hr : Reaches s dir) (hinv : PagingInv s.mem s.pfa dir rest)
    (hv : virt < 0xffc00000) :
    unmapPage s virt = .ok ((unmapPhys s.mem dir virt).1,
      { s with mem := (unmapPhys s.mem dir virt).2 }) := by
  have hd := pdIndex_lt hv
  have ht := ptIndex_lt virt
  have hpde := load_pde hr hinv.self (show pdIndex virt < 1024 by omega)
  have hlast : pdIndex virt ≠ 1023 := by omega
  by_cases hoff : pageOffset virt = 0
  · by_cases hp : isPresent (pde s.mem dir (pdIndex virt)) = true
    · have hload := load_pte hr hinv.self (show pdIndex virt < 1024 by omega) ht hp
      have hstore := fun word => store_pte word hr hinv.self
        (show pdIndex virt < 1024 by omega) ht hp
      have hview := s.tableView_eq dir (pdIndex virt)
      by_cases hpte : isPresent
          (s.mem (tableAddr s.mem dir (pdIndex virt) + 4 * ptIndex virt)) = true
      · simp only [unmapPage, unmapPhys, hoff, ne_eq, not_true_eq_false, if_false, if_neg hlast,
          hpde, Run.ok_bind, hview, hload, hstore, hp, hpte, and_self, if_true]
        rfl
      · simp only [unmapPage, unmapPhys, hoff, ne_eq, not_true_eq_false, if_false, if_neg hlast,
          hpde, Run.ok_bind, hview, hload, hp, hpte]
        rfl
    · simp only [unmapPage, unmapPhys, hoff, ne_eq, not_true_eq_false, if_false, if_neg hlast,
        hpde, Run.ok_bind, hp]
      rfl
  · simp only [unmapPage, unmapPhys, hoff, ne_eq, not_false_eq_true, if_true, false_and, if_false]

end Code

end Ahos
