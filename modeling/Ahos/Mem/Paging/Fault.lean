import Ahos.Mem.Paging.Refine

/-!
# The page fault handler

`page_fault_handler` reads the directory and a page table through the window, so it must
not fault itself. On a directory that maps itself it never does, and its panic names the
level at which the walk of the processor ended.
-/

namespace Ahos

/-- The message for an address without a table. -/
def pdeNotPresent : String := "page directory entry NOT PRESENT"

/-- The message for an address without an entry in its table. -/
def pteNotPresent : String := "page table entry NOT PRESENT"

/-- `page_fault_handler` for the error code and the address in `CR2`. It never returns. -/
def pageFaultHandler (s : Machine) (error cr2 : ℕ) : Outcome Unit :=
  if error &&& 0x1 ≠ 0 then
    panic notImplemented
  else do
    let pde ← s.load (s.pageDirectory + 4 * pdIndex cr2)
    if isPresent pde = false then
      panic pdeNotPresent
    else
      let pte ← s.load (windowTable (pdIndex cr2) + 4 * ptIndex cr2)
      if isPresent pte = false then
        panic pteNotPresent
      else
        panic notImplemented

/-- Where the walk of the processor for an address ends. -/
inductive WalkEnd where
  | directory
  | table
  | page
deriving DecidableEq, Repr

/-- The end of the walk from the directory at `dir`. -/
def walkEnd (mem : ℕ → ℕ) (dir virt : ℕ) : WalkEnd :=
  if isPresent (pde mem dir (pdIndex virt)) then
    if isPresent (mem (tableAddr mem dir (pdIndex virt) + 4 * ptIndex virt)) then .page
    else .table
  else .directory

/-- The walk of an address without a translation ends at the directory or at a table. -/
theorem walkEnd_eq_page_iff {mem : ℕ → ℕ} {dir virt : ℕ} :
    walkEnd mem dir virt = .page ↔ translate mem dir virt ≠ none := by
  rw [translate_eq_walk, walkEnd, walk]
  split_ifs <;> simp [*]

/-- What the handler reports for the end of a walk. -/
def WalkEnd.report : WalkEnd → String
  | .directory => pdeNotPresent
  | .table => pteNotPresent
  | .page => notImplemented

/-- **The handler does not fault.** On a directory that maps itself, the handler reads its way to
the end of the walk, and reports this end. -/
theorem pageFaultHandler_eq {s : Machine} {dir error cr2 : ℕ} (hflag : s.pagingEnabled = true)
    (hr : Reaches s dir) (hself : SelfMapped s.mem dir) (herror : error % 2 = 0)
    (hcr2 : cr2 < 4294967296) :
    pageFaultHandler s error cr2 = panic (walkEnd s.mem dir cr2).report := by
  have hd : pdIndex cr2 < 1024 := by
    rw [pdIndex_eq]
    omega
  have herr : ¬ error &&& 0x1 ≠ 0 := by
    rw [Nat.and_one_is_mod]
    omega
  rw [pageFaultHandler, if_neg herr, load_pde hr hself hd, Run.ok_bind, walkEnd]
  by_cases hp : isPresent (pde s.mem dir (pdIndex cr2)) = true
  · have hview : windowTable (pdIndex cr2) =
        s.tableView (pdIndex cr2) (tableAddr s.mem dir (pdIndex cr2)) := by
      rw [Machine.tableView, if_pos hflag]
    rw [if_neg (by simp [hp]), hview, load_pte hr hself hd (ptIndex_lt cr2) hp, Run.ok_bind,
      if_pos hp]
    by_cases hpte : isPresent (s.mem (tableAddr s.mem dir (pdIndex cr2) + 4 * ptIndex cr2)) = true
    · rw [if_neg (by simp [hpte]), if_pos hpte, WalkEnd.report]
    · rw [if_pos (by simpa using hpte), if_neg hpte, WalkEnd.report]
  · rw [if_pos (by simpa using hp), if_neg hp, WalkEnd.report]

end Ahos
