import Ahos.Mem.Paging.Defs
import Ahos.Mem.Pfa.Invariant

/-!
# The page tables in memory

The directory and the tables as words of physical memory, and what the walk of the
processor makes of the addresses that the code uses for them. Entry `1023` of the
directory points to the directory itself: through it the tables appear in the
window from `0xffc00000` on, and the directory in its last page.
-/

namespace Ahos

/-! ## Entries -/

theorem pdIndex_eq (v : ℕ) : pdIndex v = v / 4194304 := Nat.shiftRight_eq_div_pow v 22

theorem ptIndex_eq (v : ℕ) : ptIndex v = v / 4096 % 1024 := by
  rw [ptIndex, Nat.shiftRight_eq_div_pow]
  exact Word32.and_low _ 10

theorem isPresent_iff {x : ℕ} : isPresent x = true ↔ x % 2 = 1 := by
  rw [isPresent, maskPresent, decide_eq_true_iff, Nat.and_one_is_mod]
  omega

/-- An entry with the address `p` of a page and the flags `f`. -/
theorem entry_addr {p f : ℕ} (hp : p % 4096 = 0) (hlt : p < 4294967296) (hf : f < 4096) :
    (p + f) &&& maskAddr = p := by
  have h := pageMask_eq (x := p + f) (by omega)
  rw [pageMask] at h
  rw [maskAddr, h]
  omega

theorem or_present_lt {f : ℕ} (hf : f < 4096) : f ||| maskPresent < 4096 :=
  Nat.or_lt_two_pow (n := 12) hf (by decide)

theorem or_present_mod (f : ℕ) : (f ||| maskPresent) % 2 = 1 := by
  have h : (f ||| maskPresent).testBit 0 = true := by
    rw [Nat.testBit_or, maskPresent]
    simp
  rwa [Nat.testBit_zero, decide_eq_true_iff] at h

/-- The word that `map_page` writes. -/
theorem pte_eq {p f : ℕ} (hp : p % 4096 = 0) (hf : f < 4096) :
    p ||| f ||| maskPresent = p + (f ||| maskPresent) := by
  rw [Nat.or_assoc, Word32.or_low (k := 12) hp (or_present_lt hf)]

/-- The word that `new_page_table` writes into the directory. -/
theorem pde_eq {p f : ℕ} (hp : p % 4096 = 0) :
    ((f &&& pgConsistentMask) ||| maskPresent) ||| p =
      p + ((f &&& pgConsistentMask) ||| maskPresent) := by
  have hf : (f &&& pgConsistentMask) ||| maskPresent < 4096 :=
    or_present_lt (lt_of_le_of_lt Nat.and_le_right (by decide))
  rw [Nat.or_comm, Word32.or_low (k := 12) hp hf]

/-- The flags that `map_page` accepts. -/
theorem flags_lt {f : ℕ} (hlt : f < 4294967296) : f &&& maskAddr = 0 ↔ f < 4096 := by
  have h := pageMask_eq hlt
  rw [pageMask] at h
  rw [maskAddr, h]
  omega

theorem not_present_and (f : ℕ) : isPresent (f &&& (0xffffffff - maskPresent)) = false := by
  rw [isPresent, Nat.and_assoc]
  simp [maskPresent]

theorem not_present_unmapped (x : ℕ) :
    isPresent (x &&& (0xffffffff - (maskPresent ||| maskAddr))) = false := by
  rw [isPresent, Nat.and_assoc]
  simp [maskPresent, maskAddr]

/-! ## Directory and tables -/

/-- The entry `d` of the directory at `dir`. -/
def pde (mem : ℕ → ℕ) (dir d : ℕ) : ℕ := mem (dir + 4 * d)

/-- The page table of the entry `d`. -/
def tableAddr (mem : ℕ → ℕ) (dir d : ℕ) : ℕ := pde mem dir d &&& maskAddr

/-- The last entry of the directory points to the directory. -/
structure SelfMapped (mem : ℕ → ℕ) (dir : ℕ) : Prop where
  present : isPresent (pde mem dir 1023) = true
  addr : tableAddr mem dir 1023 = dir

/-- The frames of the page tables, other than the directory. -/
def tables (mem : ℕ → ℕ) (dir : ℕ) : List (ℕ × ℕ) :=
  ((List.range 1023).filter fun d => isPresent (pde mem dir d)).map fun d =>
    (tableAddr mem dir d, 1)

theorem mem_tables {mem : ℕ → ℕ} {dir d : ℕ} (hd : d < 1023)
    (hp : isPresent (pde mem dir d) = true) : (tableAddr mem dir d, 1) ∈ tables mem dir :=
  List.mem_map_of_mem (f := fun d => (tableAddr mem dir d, 1))
    (List.mem_filter.mpr ⟨List.mem_range.mpr hd, hp⟩)

/-- **The window.** Through the self-mapping, the word `t` of the table of entry `d` appears at
`0xffc00000 + d * 4096 + 4 * t`. -/
theorem translate_window {mem : ℕ → ℕ} {dir d t : ℕ} (hself : SelfMapped mem dir)
    (hd : d < 1024) (ht : t < 1024) (hp : isPresent (pde mem dir d) = true) :
    translate mem dir (windowTable d + 4 * t) = some (tableAddr mem dir d + 4 * t) := by
  have hpd : pdIndex (windowTable d + 4 * t) = 1023 := by
    rw [pdIndex_eq, windowTable]
    omega
  have hpt : ptIndex (windowTable d + 4 * t) = d := by
    rw [ptIndex_eq, windowTable]
    omega
  have hoff : pageOffset (windowTable d + 4 * t) = 4 * t := by
    rw [pageOffset_eq, windowTable]
    omega
  have haddr := hself.addr
  rw [tableAddr, pde] at haddr
  have hpres := hself.present
  rw [pde] at hpres hp
  simp only [translate, hpd, hpt, hoff, hpres, if_true, haddr, hp]
  rfl

/-- The directory appears in the last page of the window. -/
theorem translate_directory {mem : ℕ → ℕ} {dir d : ℕ} (hself : SelfMapped mem dir)
    (hd : d < 1024) : translate mem dir (0xfffff000 + 4 * d) = some (dir + 4 * d) := by
  have h := translate_window hself (d := 1023) (t := d) (by omega) hd hself.present
  rwa [hself.addr] at h

/-! ## Access -/

/-- How the code reaches the directory at `dir`: through the window when paging is enabled,
by its physical address before. -/
inductive Reaches (s : Machine) (dir : ℕ) : Prop
  | window (hflag : s.pagingEnabled = true) (hpg : s.cr0Pg = true) (hcr3 : s.cr3 = dir)
    (hdir : s.pageDirectory = 0xfffff000)
  | identity (hflag : s.pagingEnabled = false) (hpg : s.cr0Pg = false)
    (hdir : s.pageDirectory = dir)

/-- The mode does not depend on memory and allocator. -/
theorem Reaches.update {s : Machine} {dir : ℕ} (h : Reaches s dir) (mem : ℕ → ℕ) (pfa : PfaMeta) :
    Reaches { s with mem := mem, pfa := pfa } dir := by
  cases h with
  | window h1 h2 h3 h4 => exact .window h1 h2 h3 h4
  | identity h1 h2 h3 => exact .identity h1 h2 h3

/-- The address that the code uses for the table of entry `d`, where `phys` is its frame. -/
def Machine.tableView (s : Machine) (d phys : ℕ) : ℕ :=
  if s.pagingEnabled then windowTable d else phys

/-- The address of a table as `map_page` and `unmap_page` compute it. -/
theorem Machine.tableView_eq (s : Machine) (dir d : ℕ) :
    (if s.pagingEnabled then windowTable d else pde s.mem dir d &&& maskAddr) =
      s.tableView d (tableAddr s.mem dir d) := rfl

section Access

variable {s : Machine} {dir d t word : ℕ}

theorem resolve_pde (h : Reaches s dir) (hself : SelfMapped s.mem dir) (hd : d < 1024) :
    s.resolve (s.pageDirectory + 4 * d) = .ok (dir + 4 * d) := by
  cases h with
  | window h1 h2 h3 h4 =>
    simp only [Machine.resolve, h2, if_true, h3, h4, translate_directory hself hd]
  | identity h1 h2 h3 => simp [Machine.resolve, h2, h3]

theorem resolve_pte (h : Reaches s dir) (hself : SelfMapped s.mem dir) (hd : d < 1024)
    (ht : t < 1024) (hp : isPresent (pde s.mem dir d) = true) :
    s.resolve (s.tableView d (tableAddr s.mem dir d) + 4 * t) =
      .ok (tableAddr s.mem dir d + 4 * t) := by
  cases h with
  | window h1 h2 h3 h4 =>
    simp only [Machine.tableView, h1, Machine.resolve, h2, if_true, h3,
      translate_window hself hd ht hp]
  | identity h1 h2 h3 => simp [Machine.tableView, h1, Machine.resolve, h2]

theorem load_pde (h : Reaches s dir) (hself : SelfMapped s.mem dir) (hd : d < 1024) :
    s.load (s.pageDirectory + 4 * d) = .ok (pde s.mem dir d) := by
  simp only [Machine.load, resolve_pde h hself hd, Run.ok_bind, Run.pure_eq, pde]

theorem store_pde (h : Reaches s dir) (hself : SelfMapped s.mem dir) (hd : d < 1024) :
    s.store (s.pageDirectory + 4 * d) word =
      .ok { s with mem := Function.update s.mem (dir + 4 * d) word } := by
  simp only [Machine.store, resolve_pde h hself hd, Run.ok_bind, Run.pure_eq]

theorem load_pte (h : Reaches s dir) (hself : SelfMapped s.mem dir) (hd : d < 1024)
    (ht : t < 1024) (hp : isPresent (pde s.mem dir d) = true) :
    s.load (s.tableView d (tableAddr s.mem dir d) + 4 * t) =
      .ok (s.mem (tableAddr s.mem dir d + 4 * t)) := by
  simp only [Machine.load, resolve_pte h hself hd ht hp, Run.ok_bind, Run.pure_eq]

theorem store_pte (word : ℕ) (h : Reaches s dir) (hself : SelfMapped s.mem dir) (hd : d < 1024)
    (ht : t < 1024) (hp : isPresent (pde s.mem dir d) = true) :
    s.store (s.tableView d (tableAddr s.mem dir d) + 4 * t) word =
      .ok { s with mem := Function.update s.mem (tableAddr s.mem dir d + 4 * t) word } := by
  simp only [Machine.store, resolve_pte h hself hd ht hp, Run.ok_bind, Run.pure_eq]

end Access

end Ahos
