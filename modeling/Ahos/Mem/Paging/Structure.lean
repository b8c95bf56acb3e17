import Ahos.Mem.Paging.Setup

/-!
# The structure of the page directory

What holds of the directory and of the page tables at every point of a run of `map_page` and
`unmap_page` with arbitrary flags, while other owners allocate and release page frames of their
own. `new_page_table` masks the flags for the directory entry, and `map_page` refuses flags that
do not agree with it, so that an entry of a table always agrees with the entry of its table.
-/

namespace Ahos

/-- `PDE_MASK_PAGE_SIZE` and `PDE_MASK_GLOBAL_PAGE`. -/
def maskSizeGlobal : ℕ := 0x180

/-- The flags of the entries: no directory entry has the size or the global bit, and the present
entries of a table agree with the entry of the table. -/
structure EntryFlags (mem : ℕ → ℕ) (dir : ℕ) : Prop where
  small : ∀ d < 1024, pde mem dir d &&& maskSizeGlobal = 0
  agree : ∀ d < 1023, isPresent (pde mem dir d) = true → ∀ t < 1024,
    isPresent (mem (tableAddr mem dir d + 4 * t)) = true →
      mem (tableAddr mem dir d + 4 * t) &&& pgConsistentMask = pde mem dir d &&& pgConsistentMask

/-! ## Flags of a word -/

/-- The flags of an entry do not depend on its address. -/
theorem flags_entry {p f m : ℕ} (hp : p % 4096 = 0) (hf : f < 4096)
    (hm : (2 ^ 12 - 1) &&& m = m) : (p + f) &&& m = f &&& m := by
  have hlow : (p + f) % 2 ^ 12 = f := by omega
  have hf' : f % 2 ^ 12 = f := by omega
  rw [← hm, ← Nat.and_assoc, ← Nat.and_assoc, Word32.and_low, Word32.and_low, hlow, hf']

/-- The word that `map_page` writes has the flags of its argument. -/
theorem flags_pte {p f : ℕ} (hp : p % 4096 = 0) (hf : f < 4096) :
    (p ||| f ||| maskPresent) &&& pgConsistentMask = f &&& pgConsistentMask := by
  rw [pte_eq hp hf, flags_entry hp (or_present_lt hf) (by decide), Nat.and_or_distrib_right,
    show maskPresent &&& pgConsistentMask = 0 by decide, Nat.or_zero]

/-- The word that `new_page_table` writes into the directory has the flags that the table is made
for, and none of the size and global bits. -/
theorem flags_newPde {table : ℕ} (flags : ℕ) (hmod : table % 4096 = 0) :
    newPde flags table &&& pgConsistentMask = flags &&& pgConsistentMask ∧
      newPde flags table &&& maskSizeGlobal = 0 := by
  have hlt : (flags &&& pgConsistentMask) ||| maskPresent < 4096 :=
    or_present_lt (lt_of_le_of_lt Nat.and_le_right (by decide))
  have hmask : ∀ m, (2 ^ 12 - 1) &&& m = m →
      newPde flags table &&& m = (flags &&& (pgConsistentMask &&& m)) ||| (maskPresent &&& m) := by
    intro m hm
    rw [newPde, pde_eq hmod, flags_entry hmod hlt hm, Nat.and_or_distrib_right, Nat.and_assoc]
  rw [hmask _ (by decide), hmask _ (by decide)]
  constructor
  · rw [show pgConsistentMask &&& pgConsistentMask = pgConsistentMask by decide,
      show maskPresent &&& pgConsistentMask = 0 by decide, Nat.or_zero]
  · rw [show pgConsistentMask &&& maskSizeGlobal = 0 by decide,
      show maskPresent &&& maskSizeGlobal = 0 by decide, Nat.and_zero, Nat.or_zero]

/-! ## Steps -/

section Steps

variable {mem mem' : ℕ → ℕ} {pfa pfa' : PfaMeta} {dir : ℕ} {rest : List (ℕ × ℕ)}

/-- Writing an entry of a table keeps the flags, if the new entry is absent or agrees. -/
theorem EntryFlags.update_pte (h : EntryFlags mem dir) (hinv : PagingInv mem pfa dir rest)
    {d t : ℕ} (word : ℕ) (hd : d < 1023) (ht : t < 1024) (hp : isPresent (pde mem dir d) = true)
    (hword : isPresent word = true →
      word &&& pgConsistentMask = pde mem dir d &&& pgConsistentMask) :
    EntryFlags (Function.update mem (tableAddr mem dir d + 4 * t) word) dir := by
  have hdir := hinv.table_dir hd hp
  have hpde : ∀ e < 1024,
      pde (Function.update mem (tableAddr mem dir d + 4 * t) word) dir e = pde mem dir e :=
    fun e he => Function.update_of_ne (by omega) _ _
  constructor
  · intro e he
    rw [hpde e he]
    exact h.small e he
  · intro e he hpe u hu
    have haddr : tableAddr (Function.update mem (tableAddr mem dir d + 4 * t) word) dir e =
        tableAddr mem dir e := congrArg (· &&& maskAddr) (hpde e (by omega))
    rw [hpde e (by omega)] at hpe ⊢
    rw [haddr]
    by_cases hsame : tableAddr mem dir e + 4 * u = tableAddr mem dir d + 4 * t
    · -- it is the entry that was written
      have hed : e = d := by
        by_contra hne
        have := hinv.table_table he hd hne hpe hp
        omega
      rw [hsame, Function.update_self, hed]
      exact hword
    · rw [Function.update_of_ne hsame]
      exact h.agree e he hpe u hu

/-- A new table has no present entry. -/
theorem EntryFlags.newTable (h : EntryFlags mem dir) (hinv : PagingInv mem pfa dir rest)
    {d table : ℕ} (flags : ℕ) (hd : d < 1023) (halloc : pfaAlloc pfa 1 = .ok (table, pfa'))
    (hne : table ≠ 0) :
    EntryFlags (newTableMem mem dir d flags table) dir := by
  obtain ⟨hown, hmod, hlt, hapart⟩ := hinv.new_frame halloc hne
  have hpde := fun e (he : e < 1024) => pde_newTableMem mem d flags hapart he
  constructor
  · intro e he
    rw [hpde e he]
    split_ifs
    · exact (flags_newPde flags hmod).2
    · exact h.small e he
  · intro e he hpe u hu hpu
    rw [hpde e (by omega)] at hpe
    by_cases hed : e = d
    · -- the entries of the new table are absent
      have haddr : tableAddr (newTableMem mem dir d flags table) dir e = table := by
        rw [tableAddr, hpde e (by omega), if_pos hed]
        exact (newPde_spec flags hmod (by omega)).2
      rw [haddr, newTableMem, fillTable_in hu, not_present_and] at hpu
      cases hpu
    · rw [if_neg hed] at hpe
      have hap := (List.pairwise_cons.mp hown.pairwise).1 (tableAddr mem dir e, 1)
        (List.mem_cons_of_mem _ (List.mem_append_left rest (mem_tables he hpe)))
      have hdir := hinv.table_dir he hpe
      simp only [Apart] at hap
      have hword : newTableMem mem dir d flags table (tableAddr mem dir e + 4 * u) =
          mem (tableAddr mem dir e + 4 * u) := by
        rw [newTableMem, fillTable_out (by omega)]
        exact Function.update_of_ne (by omega) _ _
      rw [tableAddr, hpde e (by omega), if_neg hed, ← tableAddr, hword] at hpu ⊢
      exact h.agree e he hpe u hu hpu

/-- `map_page` keeps the flags. -/
theorem EntryFlags.mapPhys (h : EntryFlags mem dir) (hinv : PagingInv mem pfa dir rest)
    {phys virt flags : ℕ} {ret : Bool} (hv : virt < 0xffc00000) (hflags : flags < 4294967296)
    (hmap : mapPhys mem pfa dir phys virt flags = .ok (ret, mem', pfa')) :
    EntryFlags mem' dir := by
  have hd := pdIndex_lt hv
  have ht := ptIndex_lt virt
  obtain ⟨-, rfl, -⟩ | ⟨-, ⟨hpalign, -, hf⟩, hdone⟩ := mapPhys_cases hmap
  · exact h
  rw [pageOffset_eq] at hpalign
  rw [flags_lt hflags] at hf
  obtain ⟨hp, hcons, -, rfl, rfl⟩ | ⟨hp, table, halloc, hne, rfl⟩ := hdone
  · refine h.update_pte hinv _ hd ht hp fun _ => ?_
    rw [flags_pte hpalign hf]
    exact hcons
  · obtain ⟨hinv₁, hpres₁, htable, -⟩ := walk_newTableMem hinv hd hp halloc hne
    obtain ⟨-, hmod, -, hapart⟩ := hinv.new_frame halloc hne
    have hnew := (h.newTable hinv flags hd halloc hne).update_pte hinv₁
      (phys ||| flags ||| maskPresent) hd ht hpres₁
    rw [htable] at hnew
    refine hnew fun _ => ?_
    rw [flags_pte hpalign hf, pde_newTableMem mem (pdIndex virt) flags hapart (by omega), if_pos rfl,
      (flags_newPde flags hmod).1]

/-- `unmap_page` keeps the flags. -/
theorem EntryFlags.unmapPhys (h : EntryFlags mem dir) (hinv : PagingInv mem pfa dir rest)
    {virt : ℕ} (hv : virt < 0xffc00000) : EntryFlags (unmapPhys mem dir virt).2 dir := by
  simp only [Ahos.unmapPhys]
  split_ifs with hcond
  · refine h.update_pte hinv _ (pdIndex_lt hv) (ptIndex_lt virt) hcond.2.1 fun hp => ?_
    rw [not_present_unmapped] at hp
    cases hp
  · exact h

end Steps

/-! ## Setup -/

/-- The flags of the new directory. -/
theorem entryFlags_fresh {mem : ℕ → ℕ} {dir : ℕ} (halign : dir % 4096 = 0)
    (hlt : dir < 4294967296) : EntryFlags (freshDirectoryMem mem dir) dir := by
  obtain ⟨-, habsent⟩ := freshDirectory_spec halign hlt
  constructor
  · intro d hd
    rw [pde, freshDirectoryMem]
    by_cases hlast : d = 1023
    · rw [hlast, Function.update_self, pte_eq halign (by decide),
        flags_entry halign (by decide) (by decide)]
      decide
    · rw [Function.update_of_ne (by omega), fillTable_in hd]
      decide
  · intro d hd hp
    rw [habsent d hd] at hp
    cases hp

/-- Mapping a page to itself keeps the flags. -/
theorem EntryFlags.mapIdentity {s s' : Machine} {dir a : ℕ} {rest : List (ℕ × ℕ)} {msg : String}
    (h : EntryFlags s.mem dir) (hk : KernelPaging s dir rest) (ha : a < 0xffc00000)
    (hmap : mapIdentity s a msg = .ok s') : EntryFlags s'.mem dir := by
  obtain ⟨mem', pfa', hphys, rfl⟩ := mapIdentity_mapPhys hk.reaches hk.inv ha hmap
  exact h.mapPhys hk.inv ha (by decide) hphys

theorem EntryFlags.mapAll {s s' : Machine} {dir : ℕ} {rest : List (ℕ × ℕ)} {msg : String}
    {pages : List ℕ} (h : EntryFlags s.mem dir) (hk : KernelPaging s dir rest)
    (hlt : ∀ a ∈ pages, a < 0xffc00000) (hmap : mapAll msg s pages = .ok s') :
    EntryFlags s'.mem dir := by
  induction pages generalizing s with
  | nil =>
    obtain rfl := Except.ok.inj hmap
    exact h
  | cons a pages ih =>
    rw [Ahos.mapAll, List.foldlM_cons, Run.bind_eq_ok] at hmap
    obtain ⟨t, ht, hmap⟩ := hmap
    have ha := hlt a (List.mem_cons_self ..)
    exact ih (h.mapIdentity hk ha ht) (mapIdentity_ok hk ha ht).1
      (fun b hb => hlt b (List.mem_cons_of_mem _ hb)) hmap

/-- The flags that `paging_setup` leaves. -/
theorem entryFlags_pagingSetup {env : BootRanges} {s s' : Machine} {rest : List (ℕ × ℕ)}
    (henv : env.Below) (hpfa : PfaInv s.pfa rest) (hflag : s.pagingEnabled = false)
    (hpg : s.cr0Pg = false) (h : pagingSetup env s = .ok s') : EntryFlags s'.mem s'.cr3 := by
  obtain ⟨dir, pfa, t, halign, hlt, -, hinv, rfl, hmap⟩ := pagingSetup_ok henv hpfa hpg h
  obtain ⟨hfresh, -⟩ := kernelPaging_fresh (s := s) hflag hpg hinv
  have hflags : EntryFlags t.mem dir :=
    (entryFlags_fresh halign hlt).mapAll hfresh (mem_bootPages_lt henv) hmap
  exact hflags

/-! ## Runs -/

/-- What happens next: a call of the paging code, or another owner allocates page frames or
releases some of its own, given by their position among them. -/
inductive PagingOp where
  | call (op : PageOp)
  | alloc (nbPages : ℕ)
  | free (i : ℕ)
deriving DecidableEq, Repr

/-- The machine together with the allocations of the other owners. -/
structure PagingRun where
  machine : Machine
  others : List (ℕ × ℕ)

/-- One step. -/
def PagingRun.step (r : PagingRun) : PagingOp → Outcome PagingRun
  | .call op => do
    let (_, machine) ← callPage r.machine op
    return { r with machine := machine }
  | .alloc nbPages => do
    let (p, pfa) ← pfaAlloc r.machine.pfa nbPages
    return ⟨{ r.machine with pfa := pfa },
      if p = badPage then r.others else (p, nbPages) :: r.others⟩
  | .free i =>
    match r.others[i]? with
    | none => .ok r
    | some a => do
      let pfa ← pfaFree r.machine.pfa a.1
      return ⟨{ r.machine with pfa := pfa }, r.others.eraseIdx i⟩

/-- The arguments of the paging code are words, with pages below the window. -/
def PagingOp.Below : PagingOp → Prop
  | .call op => op.Below
  | _ => True

/-- The invariant of a run. -/
structure RunInv (dir : ℕ) (r : PagingRun) : Prop where
  reaches : Reaches r.machine dir
  inv : PagingInv r.machine.mem r.machine.pfa dir r.others
  null : NoNullFrame r.machine.pfa
  flags : EntryFlags r.machine.mem dir

/-- Allocations of others behind those of the tables. -/
private theorem perm_others (mem : ℕ → ℕ) (dir : ℕ) (a : ℕ × ℕ) (rest : List (ℕ × ℕ)) :
    (a :: (dir, 1) :: (tables mem dir ++ rest)).Perm ((dir, 1) :: (tables mem dir ++ a :: rest)) :=
  (List.Perm.swap _ _ _).trans (List.Perm.cons _ List.perm_middle.symm)

/-- The places of the regions do not change in a call. -/
theorem shape_callPhys {mem mem' : ℕ → ℕ} {pfa pfa' : PfaMeta} {dir : ℕ} {rest : List (ℕ × ℕ)}
    {op : PageOp} {ret : Bool} (hinv : PagingInv mem pfa dir rest)
    (h : callPhys mem pfa dir op = .ok (ret, mem', pfa')) : shape pfa' = shape pfa := by
  cases op with
  | map phys virt flags =>
    rw [callPhys] at h
    obtain ⟨-, -, rfl⟩ | ⟨-, -, ⟨-, -, -, -, rfl⟩ | ⟨-, table, halloc, -, -⟩⟩ := mapPhys_cases h
    · rfl
    · rfl
    · exact (hinv.owned.of_alloc halloc).1
  | unmap virt =>
    obtain ⟨-, -, rfl⟩ := Prod.mk.inj (Except.ok.inj h) |>.imp_right Prod.mk.inj
    rfl

/-- Every step keeps the invariant. -/
theorem RunInv.step {dir : ℕ} {r r' : PagingRun} {op : PagingOp} (h : RunInv dir r)
    (hop : op.Below) (hstep : r.step op = .ok r') : RunInv dir r' := by
  cases op with
  | call op =>
    rw [PagingRun.step, callPage_eq h.reaches h.inv (PageOp.Below.virt_lt hop),
      Run.bind_eq_ok] at hstep
    obtain ⟨⟨ret, machine⟩, hcall, hstep⟩ := hstep
    obtain rfl := Except.ok.inj hstep
    cases hphys : callPhys r.machine.mem r.machine.pfa dir op with
    | error e =>
      rw [hphys] at hcall
      cases hcall
    | ok x =>
      obtain ⟨ret', mem', pfa'⟩ := x
      rw [hphys] at hcall
      obtain ⟨rfl, rfl⟩ := Prod.mk.inj (Except.ok.inj hcall)
      obtain ⟨hinv', -, -⟩ := callPhys_spec h.inv hop hphys
      refine ⟨h.reaches.update _ _, hinv', forall_of_shape (P := fun p n => 0 < n → 0 < p)
        (shape_callPhys h.inv hphys) h.null, ?_⟩
      cases op with
      | map phys virt flags => exact h.flags.mapPhys h.inv hop.2.1 hop.2.2 hphys
      | unmap virt =>
        obtain ⟨-, rfl, -⟩ := Prod.mk.inj (Except.ok.inj hphys) |>.imp_right Prod.mk.inj
        exact h.flags.unmapPhys h.inv hop
  | alloc n =>
    obtain ⟨p, pfa, halloc, hshape, hinv⟩ := pfaAlloc_spec h.inv.owned n
    rw [PagingRun.step, halloc, Run.ok_bind] at hstep
    obtain rfl := Except.ok.inj hstep
    refine ⟨h.reaches.update _ _, ⟨?_, h.inv.self⟩,
      forall_of_shape (P := fun p n => 0 < n → 0 < p) hshape h.null, h.flags⟩
    by_cases hp : p = badPage
    · simp only [if_pos hp] at hinv ⊢
      exact hinv
    · simp only [if_neg hp] at hinv ⊢
      exact hinv.perm (perm_others _ _ _ _)
  | free i =>
    simp only [PagingRun.step] at hstep
    cases hget : r.others[i]? with
    | none =>
      rw [hget] at hstep
      obtain rfl := Except.ok.inj hstep
      exact h
    | some a =>
      obtain ⟨p, n⟩ := a
      obtain ⟨hi, hval⟩ := List.getElem?_eq_some_iff.mp hget
      have hcons := List.getElem_cons_eraseIdx_perm hi
      rw [hval] at hcons
      have hperm := (perm_others r.machine.mem dir (p, n) (r.others.eraseIdx i)).trans
        (List.Perm.cons _ (hcons.append_left _))
      have hown := h.inv.owned.perm hperm.symm
      obtain ⟨pfa, hfree, hshape, hinv, -⟩ := pfaFree_spec hown (List.mem_cons_self ..)
      rw [hget] at hstep
      simp only [hfree, Run.ok_bind] at hstep
      obtain rfl := Except.ok.inj hstep
      rw [List.erase_cons_head] at hinv
      exact ⟨h.reaches.update _ _, ⟨hinv, h.inv.self⟩,
        forall_of_shape (P := fun p n => 0 < n → 0 < p) hshape h.null, h.flags⟩

/-- What holds of the directory at `dir`. -/
structure DirectoryStructure (s : Machine) (dir : ℕ) : Prop where
  self : isPresent (pde s.mem dir 1023) = true ∧ tableAddr s.mem dir 1023 = dir
  distinct : ∀ d < 1023, ∀ e < 1023, d ≠ e → isPresent (pde s.mem dir d) = true →
    isPresent (pde s.mem dir e) = true → tableAddr s.mem dir d ≠ tableAddr s.mem dir e
  apart : ∀ d < 1023, isPresent (pde s.mem dir d) = true → tableAddr s.mem dir d ≠ dir
  allocated : ∀ d < 1023, isPresent (pde s.mem dir d) = true →
    ∃ c, c ≠ .free ∧ FrameIs s.pfa (tableAddr s.mem dir d) c
  flags : EntryFlags s.mem dir

theorem RunInv.structure {dir : ℕ} {r : PagingRun} (h : RunInv dir r) :
    DirectoryStructure r.machine dir where
  self := ⟨h.inv.self.present, h.inv.self.addr⟩
  distinct d hd e he hne hp hp' := by
    have := h.inv.table_table hd he hne hp hp'
    omega
  apart d hd hp := by
    have := h.inv.table_dir hd hp
    omega
  allocated d hd hp := by
    have hwithin : Within ((dir, 1) :: (tables r.machine.mem dir ++ r.others))
        (tableAddr r.machine.mem dir d) :=
      ⟨(tableAddr r.machine.mem dir d, 1),
        List.mem_cons_of_mem _ (List.mem_append_left _ (mem_tables hd hp)), 0, by simp, by simp⟩
    obtain ⟨c, hc⟩ := h.inv.owned.exists_frameIs hwithin
    exact ⟨c, (h.inv.owned.within_iff h.null hc).mpr hwithin, hc⟩
  flags := h.flags

/-- The state after `paging_setup`. -/
theorem runInv_pagingSetup {env : BootRanges} {s₀ s : Machine} {others : List (ℕ × ℕ)}
    (henv : env.Below) (hpfa : PfaInv s₀.pfa others) (hnull : NoNullFrame s₀.pfa)
    (hflag : s₀.pagingEnabled = false) (hpg : s₀.cr0Pg = false)
    (hsetup : pagingSetup env s₀ = .ok s) : RunInv s.cr3 ⟨s, others⟩ := by
  obtain ⟨-, -, hshape, hk, -⟩ := pagingSetup_spec henv hpfa hflag hpg hsetup
  exact ⟨hk.reaches, hk.inv, forall_of_shape (P := fun p n => 0 < n → 0 < p) hshape hnull,
    entryFlags_pagingSetup henv hpfa hflag hpg hsetup⟩

/-- **The structure of the page directory over whole runs.** After `paging_setup`, at every point of
a run of `map_page` and `unmap_page` with arbitrary flags and pages below the window, interleaved
with allocations and releases of other owners: the last entry of the directory is present and points
to the directory; the tables have frames of their own, which are allocated; no directory entry has
the size or the global bit; and the present entries of a table agree with its directory entry on
the read/write, user, write-through and cache bits. -/
theorem page_directory_structure {env : BootRanges} {s₀ s : Machine} {others : List (ℕ × ℕ)}
    (henv : env.Below) (hpfa : PfaInv s₀.pfa others) (hnull : NoNullFrame s₀.pfa)
    (hflag : s₀.pagingEnabled = false) (hpg : s₀.cr0Pg = false)
    (hsetup : pagingSetup env s₀ = .ok s) {ops : List PagingOp} (hops : ∀ op ∈ ops, op.Below)
    {r : PagingRun} (hrun : Run.run PagingRun.step ⟨s, others⟩ ops = .ok r) :
    DirectoryStructure r.machine s.cr3 := by
  have hstart := runInv_pagingSetup henv hpfa hnull hflag hpg hsetup
  have hinv : RunInv s.cr3 r := Run.run_invariant
    (fun t op t' hop ht hstep => RunInv.step ht (hops op hop) hstep) hstart hrun
  exact hinv.structure

/-- A run on the small machine: the text screen is unmapped, and another owner takes two frames. -/
theorem page_directory_structure_small :
    ∃ s r, pagingSetup smallBoot smallMachine = .ok s ∧
      Run.run PagingRun.step ⟨s, []⟩ [.call (.unmap 0xb8000), .alloc 2] = .ok r ∧
      DirectoryStructure r.machine s.cr3 := by
  obtain ⟨s, hs⟩ := pagingSetup_small
  obtain ⟨-, -, -, hk, -⟩ := pagingSetup_spec smallBoot_below pfaInv_smallMachine rfl rfl hs
  have hcall := unmapPage_eq hk.reaches hk.inv (show 0xb8000 < 0xffc00000 by omega)
  obtain ⟨p, pfa, halloc, -, -⟩ := pfaAlloc_spec hk.inv.owned 2
  have hrun : ∃ r, Run.run PagingRun.step ⟨s, []⟩ [.call (.unmap 0xb8000), .alloc 2] = .ok r := by
    refine ⟨⟨{ s with mem := (unmapPhys s.mem s.cr3 0xb8000).2, pfa := pfa },
      if p = badPage then [] else [(p, 2)]⟩, ?_⟩
    simp only [Run.run_cons, Run.run_nil, PagingRun.step, callPage, hcall, halloc, Run.ok_bind,
      Run.pure_eq]
  obtain ⟨r, hr⟩ := hrun
  refine ⟨s, r, hs, hr, ?_⟩
  exact page_directory_structure smallBoot_below pfaInv_smallMachine
    (by simp [NoNullFrame, smallMachine]) rfl rfl hs
    (by simp [PagingOp.Below, PageOp.Below]) hr

end Ahos
