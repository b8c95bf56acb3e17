import Ahos.Mem.Paging.Phys

/-!
# The page map

The abstract view of the tables: a map from the pages below `0xffc00000` to a physical
page and its flags. `map_page` and `unmap_page` refine insertion and removal in this map.
-/

namespace Ahos

/-- The entry that the two-level walk finds for a page: the physical page and the flags. -/
def walk (mem : ℕ → ℕ) (dir virt : ℕ) : Option (ℕ × ℕ) :=
  if isPresent (pde mem dir (pdIndex virt)) then
    let pte := mem (tableAddr mem dir (pdIndex virt) + 4 * ptIndex virt)
    if isPresent pte then some (pte &&& maskAddr, pageOffset pte) else none
  else none

/-- The processor translates an address through the entry of its page. -/
theorem translate_eq_walk (mem : ℕ → ℕ) (dir virt : ℕ) :
    translate mem dir virt = (walk mem dir virt).map fun e => e.1 + pageOffset virt := by
  simp only [translate, walk, tableAddr, pde]
  split_ifs with hpde hpte <;> simp [hpde]
  · simp [hpte]
  · simp [hpte]

/-- The page of an address is determined by its two indices. -/
theorem eq_of_indices {v w : ℕ} (hv : v % 4096 = 0) (hw : w % 4096 = 0)
    (hd : pdIndex v = pdIndex w) (ht : ptIndex v = ptIndex w) : v = w := by
  rw [pdIndex_eq, pdIndex_eq] at hd
  rw [ptIndex_eq, ptIndex_eq] at ht
  omega

/-! ## The frames of the tables -/

section Tables

variable {mem mem' : ℕ → ℕ} {dir d : ℕ}

/-- The tables depend on the directory only. -/
theorem tables_congr (h : ∀ e < 1023, pde mem' dir e = pde mem dir e) :
    tables mem' dir = tables mem dir := by
  unfold tables tableAddr
  rw [List.filter_congr fun e he => by rw [h e (List.mem_range.mp he)]]
  refine List.map_congr_left fun e he => ?_
  rw [h e (List.mem_range.mp (List.mem_filter.mp he).1)]

/-- Linking a table adds its frame. -/
theorem tables_perm_cons (hd : d < 1023) (hp : isPresent (pde mem dir d) = false)
    (hp' : isPresent (pde mem' dir d) = true)
    (h : ∀ e < 1023, e ≠ d → pde mem' dir e = pde mem dir e) :
    (tables mem' dir).Perm ((tableAddr mem' dir d, 1) :: tables mem dir) := by
  have hrange : (List.range 1023).Perm (d :: (List.range 1023).erase d) :=
    List.perm_cons_erase (List.mem_range.mpr hd)
  have hmem : ∀ e ∈ (List.range 1023).erase d, e < 1023 ∧ e ≠ d := by
    intro e he
    rw [List.Nodup.mem_erase_iff List.nodup_range] at he
    exact ⟨List.mem_range.mp he.2, he.1⟩
  have hnew := (hrange.filter fun e => isPresent (pde mem' dir e)).map
    fun e => (tableAddr mem' dir e, 1)
  have hold := (hrange.filter fun e => isPresent (pde mem dir e)).map
    fun e => (tableAddr mem dir e, 1)
  rw [List.filter_cons_of_pos (by simpa using hp'), List.map_cons] at hnew
  rw [List.filter_cons_of_neg (by simp [hp])] at hold
  refine hnew.trans (List.Perm.cons _ ?_)
  rw [List.filter_congr fun e he => by rw [h e (hmem e he).1 (hmem e he).2]]
  refine (List.Perm.of_eq ?_).trans hold.symm
  refine List.map_congr_left fun e he => ?_
  obtain ⟨hlt, hne⟩ := hmem e (List.mem_filter.mp he).1
  rw [tableAddr, h e hlt hne, tableAddr]

end Tables

/-! ## Mapping -/

section Map

variable {mem : ℕ → ℕ} {pfa : PfaMeta} {dir phys virt flags : ℕ} {rest : List (ℕ × ℕ)}

/-- Writing an entry of the table of a present directory entry. -/
theorem walk_update_pte (hinv : PagingInv mem pfa dir rest) (hv : virt < 0xffc00000)
    (halign : virt % 4096 = 0) (hp : isPresent (pde mem dir (pdIndex virt)) = true) (word : ℕ) :
    let mem' := Function.update mem (tableAddr mem dir (pdIndex virt) + 4 * ptIndex virt) word
    PagingInv mem' pfa dir rest ∧ ∀ v < 0xffc00000, v % 4096 = 0 →
      walk mem' dir v = if v = virt then
        (if isPresent word then some (word &&& maskAddr, pageOffset word) else none)
      else walk mem dir v := by
  intro mem'
  have hd := pdIndex_lt hv
  have ht := ptIndex_lt virt
  have hapart := hinv.table_dir hd hp
  have hpde : ∀ e < 1024, pde mem' dir e = pde mem dir e := fun e he =>
    Function.update_of_ne (by omega) _ _
  have haddr : ∀ e < 1024, tableAddr mem' dir e = tableAddr mem dir e := fun e he => by
    rw [tableAddr, hpde e he, tableAddr]
  refine ⟨⟨?_, ?_, ?_⟩, fun v hvlt hvalign => ?_⟩
  · rw [tables_congr fun e he => hpde e (by omega)]
    exact hinv.owned
  · rw [hpde 1023 (by omega)]
    exact hinv.self.present
  · rw [haddr 1023 (by omega)]
    exact hinv.self.addr
  · have hvd := pdIndex_lt hvlt
    have hvt := ptIndex_lt v
    unfold walk
    rw [hpde _ (by omega), haddr _ (by omega)]
    by_cases hsame : v = virt
    · subst hsame
      simp only [hp, if_true, mem', Function.update_self]
    · rw [if_neg hsame]
      by_cases hpv : isPresent (pde mem dir (pdIndex v)) = true
      · -- another entry of the same table, or an entry of another table
        have hne : tableAddr mem dir (pdIndex v) + 4 * ptIndex v ≠
            tableAddr mem dir (pdIndex virt) + 4 * ptIndex virt := by
          by_cases hdd : pdIndex v = pdIndex virt
          · have htt : ptIndex v ≠ ptIndex virt := fun htt =>
              hsame (eq_of_indices hvalign halign hdd htt)
            rw [hdd]
            omega
          · have := hinv.table_table hvd hd hdd hpv hp
            omega
        simp only [mem', Function.update_of_ne hne]
      · rw [if_neg hpv, if_neg hpv]

/-- Linking a fresh table changes no translation. -/
theorem walk_newTableMem (hinv : PagingInv mem pfa dir rest) {d table : ℕ} {pfa' : PfaMeta}
    (hd : d < 1023) (hp : isPresent (pde mem dir d) = false)
    (halloc : pfaAlloc pfa 1 = .ok (table, pfa')) (hne : table ≠ 0) :
    PagingInv (newTableMem mem dir d flags table) pfa' dir rest ∧
      isPresent (pde (newTableMem mem dir d flags table) dir d) = true ∧
      tableAddr (newTableMem mem dir d flags table) dir d = table ∧
      ∀ v < 0xffc00000, walk (newTableMem mem dir d flags table) dir v = walk mem dir v := by
  obtain ⟨hown, hmod, hlt, hapart⟩ := hinv.new_frame halloc hne
  obtain ⟨hpres, haddr⟩ := newPde_spec flags hmod (by omega)
  have hentry := fun e (he : e < 1024) =>
    pde_newTableMem mem d flags hapart he
  have hthis : pde (newTableMem mem dir d flags table) dir d = newPde flags table := by
    rw [hentry d (by omega), if_pos rfl]
  have hother : ∀ e < 1024, e ≠ d →
      pde (newTableMem mem dir d flags table) dir e = pde mem dir e := by
    intro e he hed
    rw [hentry e he, if_neg hed]
  have htable : tableAddr (newTableMem mem dir d flags table) dir d = table := by
    rw [tableAddr, hthis, haddr]
  refine ⟨⟨?_, ?_, ?_⟩, by rw [hthis, hpres], htable, fun v hv => ?_⟩
  · have hperm := tables_perm_cons hd hp
      (by rw [hthis, hpres]) fun e he hed => hother e (by omega) hed
    rw [htable] at hperm
    refine hown.perm ?_
    refine (List.Perm.swap _ _ _).trans (List.Perm.cons _ ?_)
    exact (hperm.append_right rest).symm
  · rw [hother 1023 (by omega) (by omega)]
    exact hinv.self.present
  · rw [tableAddr, hother 1023 (by omega) (by omega)]
    exact hinv.self.addr
  · have hvd := pdIndex_lt hv
    have hvt := ptIndex_lt v
    unfold walk
    by_cases hdd : pdIndex v = d
    · -- every entry of the new table is absent
      have habsent : isPresent (newTableMem mem dir d flags table (table + 4 * ptIndex v)) = false := by
        rw [newTableMem, fillTable_in hvt, not_present_and]
      rw [hdd, hthis, htable, hp]
      simp only [habsent, Bool.false_eq_true, if_false, ite_self]
    · have hsame : tableAddr (newTableMem mem dir d flags table) dir (pdIndex v) =
          tableAddr mem dir (pdIndex v) := by
        rw [tableAddr, hother _ (by omega) hdd, tableAddr]
      rw [hother _ (by omega) hdd, hsame]
      by_cases hpv : isPresent (pde mem dir (pdIndex v)) = true
      · have hap := (List.pairwise_cons.mp hown.pairwise).1 (tableAddr mem dir (pdIndex v), 1)
          (List.mem_cons_of_mem _ (List.mem_append_left rest (mem_tables hvd hpv)))
        have hdir := hinv.table_dir hvd hpv
        simp only [Apart] at hap
        have hmem : newTableMem mem dir d flags table
            (tableAddr mem dir (pdIndex v) + 4 * ptIndex v) =
              mem (tableAddr mem dir (pdIndex v) + 4 * ptIndex v) := by
          rw [newTableMem, fillTable_out (by omega)]
          exact Function.update_of_ne (by omega) _ _
        rw [if_pos hpv, if_pos hpv, hmem]
      · rw [if_neg hpv, if_neg hpv]

/-- **`map_page` refines insertion.** A call that returns `false` changes nothing; a call that
returns `true` maps exactly the page `virt`. -/
theorem mapPhys_spec (hinv : PagingInv mem pfa dir rest) (hv : virt < 0xffc00000)
    (hphys : phys < 4294967296) (hflags : flags < 4294967296) {b : Bool} {mem' : ℕ → ℕ}
    {pfa' : PfaMeta} (h : mapPhys mem pfa dir phys virt flags = .ok (b, mem', pfa')) :
    (b = false → mem' = mem ∧ pfa' = pfa) ∧
    (b = true → virt % 4096 = 0 ∧ walk mem dir virt = none ∧ PagingInv mem' pfa' dir rest ∧
      ∀ v < 0xffc00000, v % 4096 = 0 → walk mem' dir v =
        if v = virt then some (phys, flags ||| maskPresent) else walk mem dir v) := by
  have hd := pdIndex_lt hv
  obtain ⟨rfl, rfl, rfl⟩ | ⟨rfl, ⟨hpalign, hvalign, hf⟩, hdone⟩ := mapPhys_cases h
  · exact ⟨fun _ => ⟨rfl, rfl⟩, by simp⟩
  rw [pageOffset_eq] at hpalign hvalign
  rw [flags_lt hflags] at hf
  have hodd := or_present_mod flags
  have hlow := or_present_lt hf
  have hword := pte_eq hpalign hf
  -- the word that is written stands for the page and its flags
  have hentry : (if isPresent (phys ||| flags ||| maskPresent) then
      some ((phys ||| flags ||| maskPresent) &&& maskAddr,
        pageOffset (phys ||| flags ||| maskPresent)) else none) =
      some (phys, flags ||| maskPresent) := by
    have hpres : isPresent (phys + (flags ||| maskPresent)) = true := by
      rw [isPresent_iff]
      omega
    have hoff : pageOffset (phys + (flags ||| maskPresent)) = flags ||| maskPresent := by
      rw [pageOffset_eq]
      omega
    rw [hword, if_pos hpres, entry_addr hpalign hphys hlow, hoff]
  obtain ⟨hp, -, hpte, rfl, rfl⟩ | ⟨hp, table, halloc, hne, rfl⟩ := hdone
  · obtain ⟨hinv', hwalk⟩ := walk_update_pte hinv hv hvalign hp (phys ||| flags ||| maskPresent)
    refine ⟨by simp, fun _ => ⟨hvalign, ?_, hinv', fun v hvlt hva => ?_⟩⟩
    · simp only [walk, hp, if_true, hpte, Bool.false_eq_true, if_false]
    · rw [hwalk v hvlt hva, hentry]
  · obtain ⟨hinv₁, hpres₁, htable, hwalk₁⟩ :=
      walk_newTableMem hinv hd hp halloc hne
    obtain ⟨hinv', hwalk⟩ := walk_update_pte hinv₁ hv hvalign hpres₁ (phys ||| flags ||| maskPresent)
    rw [htable] at hinv' hwalk
    refine ⟨by simp, fun _ => ⟨hvalign, ?_, hinv', fun v hvlt hva => ?_⟩⟩
    · simp only [walk, hp, Bool.false_eq_true, if_false]
    · rw [hwalk v hvlt hva, hentry, hwalk₁ v hvlt]

/-- **`unmap_page` refines removal.** It returns `true` exactly for a page that is aligned and
mapped, and removes exactly this page. -/
theorem unmapPhys_spec (hinv : PagingInv mem pfa dir rest) (hv : virt < 0xffc00000) :
    ((unmapPhys mem dir virt).1 = true ↔ virt % 4096 = 0 ∧ walk mem dir virt ≠ none) ∧
    ((unmapPhys mem dir virt).1 = false → (unmapPhys mem dir virt).2 = mem) ∧
    ((unmapPhys mem dir virt).1 = true → PagingInv (unmapPhys mem dir virt).2 pfa dir rest ∧
      ∀ v < 0xffc00000, v % 4096 = 0 → walk (unmapPhys mem dir virt).2 dir v =
        if v = virt then none else walk mem dir v) := by
  have hmapped : (pageOffset virt = 0 ∧ isPresent (pde mem dir (pdIndex virt)) = true ∧
      isPresent (mem (tableAddr mem dir (pdIndex virt) + 4 * ptIndex virt)) = true) ↔
      virt % 4096 = 0 ∧ walk mem dir virt ≠ none := by
    rw [pageOffset_eq]
    refine and_congr_right fun _ => ?_
    simp only [walk]
    split_ifs <;> simp [*]
  simp only [unmapPhys]
  split_ifs with hcond
  · obtain ⟨hinv', hwalk⟩ := walk_update_pte hinv hv (by rw [← pageOffset_eq]; exact hcond.1) hcond.2.1
      (mem (tableAddr mem dir (pdIndex virt) + 4 * ptIndex virt) &&&
        (0xffffffff - (maskPresent ||| maskAddr)))
    refine ⟨iff_of_true rfl (hmapped.mp hcond), by simp, fun _ => ⟨hinv', fun v hvlt hva => ?_⟩⟩
    rw [hwalk v hvlt hva, not_present_unmapped]
    rfl
  · exact ⟨iff_of_false (by simp) fun h => hcond (hmapped.mpr h), by simp, by simp⟩

end Map

end Ahos
