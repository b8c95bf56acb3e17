import Ahos.Mem.Pfa.Invariant
import Mathlib.Data.List.Pairwise

/-!
# Runs of the page frame allocator

A run is a list of calls of `pfa_alloc` and `pfa_free` in which no call panics.
Along a run the allocations that were handed out and not yet released are
recorded; the invariant relates that record to the pagemaps at every point.
-/

namespace Ahos

open Tiling

/-- A call of the allocator. -/
inductive PfaOp where
  | alloc (nbPages : ℕ)
  | free (pgf : ℕ)
deriving DecidableEq, Repr

/-- The allocator together with the allocations its callers hold. -/
structure PfaState where
  pfa : PfaMeta
  outstanding : List (ℕ × ℕ)
deriving DecidableEq, Repr

/-- One call: a result other than `BAD_PAGE` becomes outstanding, a released address
is not outstanding any more. -/
def PfaState.step (s : PfaState) : PfaOp → Outcome PfaState
  | .alloc nbPages => do
    let (p, pfa) ← pfaAlloc s.pfa nbPages
    return ⟨pfa, if p = badPage then s.outstanding else (p, nbPages) :: s.outstanding⟩
  | .free pgf => do
    let pfa ← pfaFree s.pfa pgf
    return ⟨pfa, s.outstanding.eraseP fun a => a.1 = pgf⟩

/-- At an address that only one allocation has, removing by address removes that
allocation. -/
theorem eraseP_eq_erase {out : List (ℕ × ℕ)} {p n : ℕ}
    (h : ∀ a ∈ out, a.1 = p → a = (p, n)) :
    out.eraseP (fun a => a.1 = p) = out.erase (p, n) := by
  induction out with
  | nil => rfl
  | cons a out ih =>
    by_cases ha : a.1 = p
    · obtain rfl := h a (List.mem_cons_self ..) ha
      simp
    · have hne : a ≠ (p, n) := by
        rintro rfl
        exact ha rfl
      rw [List.eraseP_cons_of_neg (by simpa using ha), List.erase_cons_tail (by simpa using hne),
        ih fun b hb => h b (List.mem_cons_of_mem _ hb)]

/-- The outstanding allocation at an address is unique. -/
theorem PfaInv.unique {pfa : PfaMeta} {out : List (ℕ × ℕ)} (h : PfaInv pfa out) {p n : ℕ}
    (hp : (p, n) ∈ out) : ∀ a ∈ out, a.1 = p → a = (p, n) := by
  rintro ⟨q, m⟩ hq hqp
  by_contra hne
  have hn := (h.bounds hp).1
  have hm := (h.bounds hq).1
  have hapart : Apart (q, m) (p, n) := h.pairwise.forall hq hp hne
  simp only [Apart] at hapart hqp
  omega

/-- Every call keeps the invariant and the places of the regions. -/
theorem PfaState.step_inv {s s' : PfaState} {op : PfaOp} (h : PfaInv s.pfa s.outstanding)
    (hstep : s.step op = .ok s') :
    PfaInv s'.pfa s'.outstanding ∧ shape s'.pfa = shape s.pfa := by
  cases op with
  | alloc n =>
    obtain ⟨p, pfa', halloc, hshape, hinv⟩ := pfaAlloc_spec h n
    simp only [PfaState.step, halloc, Run.ok_bind, Run.pure_eq] at hstep
    obtain rfl := Except.ok.inj hstep
    exact ⟨hinv, hshape⟩
  | free p =>
    simp only [PfaState.step, Run.bind_eq_ok] at hstep
    obtain ⟨pfa', hfree, hstep⟩ := hstep
    obtain rfl := Except.ok.inj hstep
    rcases mem_of_pfaFree h hfree with ⟨n, hn⟩ | ⟨rfl, hshape, hinv⟩
    · obtain ⟨pfa'', hfree', hshape, hinv, -⟩ := pfaFree_spec h hn
      rw [hfree] at hfree'
      obtain rfl := Except.ok.inj hfree'
      refine ⟨?_, hshape⟩
      rw [eraseP_eq_erase (h.unique hn)]
      exact hinv
    · -- the page at address 0 is never outstanding
      refine ⟨?_, hshape⟩
      rw [List.eraseP_of_forall_not]
      · exact hinv
      · rintro ⟨q, m⟩ hq
        simpa using (h.bounds hq).2.1

/-- Every run keeps the invariant and the places of the regions. -/
theorem PfaState.run_inv {s s' : PfaState} {ops : List PfaOp} (h : PfaInv s.pfa s.outstanding)
    (hrun : Run.run PfaState.step s ops = .ok s') :
    PfaInv s'.pfa s'.outstanding ∧ shape s'.pfa = shape s.pfa := by
  refine Run.run_invariant
    (I := fun t => PfaInv t.pfa t.outstanding ∧ shape t.pfa = shape s.pfa) ?_ ⟨h, rfl⟩ hrun
  rintro t op t' - ⟨ht, hshape⟩ hstep
  obtain ⟨ht', hshape'⟩ := step_inv ht hstep
  exact ⟨ht', hshape'.trans hshape⟩

/-- Regions in which every page is free have no outstanding allocation. -/
theorem pfaInv_of_free {pfa : PfaMeta} (hg : Geometry (shape pfa))
    (hfree : ∀ r ∈ pfa, ∀ c ∈ r.pagemap, c = .free) : PfaInv pfa [] := by
  refine ⟨hg, pfa.map fun r => ⟨r.firstPage, List.replicate r.nbPages .free⟩, ?_, ?_⟩
  · rw [List.map_map, eq_comm]
    refine (List.map_congr_left ?_).trans (List.map_id _)
    intro r hr
    have hmap : r.pagemap = List.replicate r.nbPages .free :=
      List.eq_replicate_iff.mpr ⟨rfl, hfree r hr⟩
    obtain ⟨p, cells⟩ := r
    simp only [Function.comp, TiledRegion.region, layout_replicate PageBlock.cells (t := .free) rfl,
      id_eq]
    rw [← hmap]
  · have hnone : ∀ p n, TiledRegion.allocations ⟨p, List.replicate n .free⟩ = [] := by
      intro p n
      have h := TiledRegion.allocationsFrom_replicate_free (fun i => p + 4096 * i) 0 n []
      rw [List.append_nil] at h
      exact h
    simp [live, List.flatMap_map, hnone]

/-- All allocations are visible to the callers when no region contains the page at
address `0`. -/
theorem live_eq {rs : List TiledRegion}
    (h : ∀ r ∈ rs.map TiledRegion.region, 0 < r.nbPages → 0 < r.firstPage) :
    live rs = rs.flatMap TiledRegion.allocations := by
  unfold live
  rw [List.filter_eq_self]
  rintro ⟨p, n⟩ hp
  obtain ⟨r, hr, hpr⟩ := List.mem_flatMap.mp hp
  have hlo := (r.bounds_of_mem_allocations hpr).2.1
  have hpos := h _ (List.mem_map_of_mem hr) (nbPages_pos_of_mem_allocations hpr)
  rw [TiledRegion.firstPage_region] at hpos
  have hne : p ≠ 0 := by simp only at hlo; omega
  exact decide_eq_true hne

/-- Regions as `pfa_init` leaves them in high memory: every page is free, and the
regions that contain pages start at or above 1 MB, are page aligned, end strictly
below `2 ^ 32` and do not overlap. -/
structure PfaStart (pfa : PfaMeta) : Prop where
  free : ∀ r ∈ pfa, ∀ c ∈ r.pagemap, c = .free
  high : ∀ r ∈ pfa, 0 < r.nbPages → 0x100000 ≤ r.firstPage
  geometry : Geometry (shape pfa)

/-- **The allocator's invariant over whole runs.** At every point of a run, each
pagemap is a row of free pages, used pages and blocks, and the used pages and blocks
are the outstanding allocations, each with the address and the number of pages it
was given. Outstanding allocations are apart, page aligned, not `BAD_PAGE`, and each
lies inside one region; and the next `pfa_alloc` returns. -/
theorem pfa_run_blocks {pfa : PfaMeta} (h : PfaStart pfa) {ops : List PfaOp} {s : PfaState}
    (hrun : Run.run PfaState.step ⟨pfa, []⟩ ops = .ok s) :
    (∃ rs : List TiledRegion, s.pfa = rs.map TiledRegion.region ∧
      (rs.flatMap TiledRegion.allocations).Perm s.outstanding) ∧
    s.outstanding.Pairwise Apart ∧
    (∀ a ∈ s.outstanding, 0 < a.2 ∧ a.1 % 4096 = 0 ∧ a.1 ≠ 0 ∧
      ∃ r ∈ s.pfa, r.firstPage ≤ a.1 ∧ a.1 + 4096 * a.2 ≤ r.endAddr) ∧
    ∀ n, ∃ s', s.step (.alloc n) = .ok s' := by
  obtain ⟨hinv, hshape⟩ := PfaState.run_inv (pfaInv_of_free h.geometry h.free) hrun
  refine ⟨?_, hinv.pairwise, ?_, ?_⟩
  · obtain ⟨-, rs, hrs, hperm⟩ := hinv
    have hhigh := forall_of_shape hshape (P := fun p n => 0 < n → 0x100000 ≤ p) h.high
    rw [hrs] at hhigh
    refine ⟨rs, hrs, ?_⟩
    rw [← live_eq fun r hr hpos => lt_of_lt_of_le (by norm_num) (hhigh r hr hpos)]
    exact hperm
  · rintro ⟨p, n⟩ ha
    obtain ⟨hn, hne, halign, r, hr, hlo, hhi, -⟩ := hinv.bounds ha
    exact ⟨hn, halign, hne, r, hr, hlo, hhi⟩
  · intro n
    obtain ⟨p, pfa', halloc, -, -⟩ := pfaAlloc_spec hinv n
    exact ⟨⟨pfa', if p = badPage then s.outstanding else (p, n) :: s.outstanding⟩,
      by simp only [PfaState.step, halloc, Run.ok_bind, Run.pure_eq]⟩

/-- Three pages, a block of two and a single page, and the block released again. -/
theorem pfa_run_blocks_three_pages :
    ∃ rs : List TiledRegion,
      [PfaRegion.mk 0x100000 [.free, .free, .used]] = rs.map TiledRegion.region ∧
      (rs.flatMap TiledRegion.allocations).Perm [(0x102000, 1)] := by
  have hstart : PfaStart [⟨0x100000, [.free, .free, .free]⟩] :=
    ⟨by simp, by simp, by simp [shape], by simp [shape, PfaRegion.nbPages], by simp [shape]⟩
  have hrun : Run.run PfaState.step ⟨[⟨0x100000, [.free, .free, .free]⟩], []⟩
      [.alloc 2, .alloc 1, .free 0x100000] =
      .ok ⟨[⟨0x100000, [.free, .free, .used]⟩], [(0x102000, 1)]⟩ := by decide +kernel
  exact (pfa_run_blocks hstart hrun).1

end Ahos
