import Ahos.Mem.Paging.Refine

/-!
# Runs of the paging code

Sequences of calls of `map_page` and `unmap_page`. A run keeps the invariant of the
tables, follows the abstract page map, and does the same to physical memory whether
the code reaches the tables through the window or by their physical addresses.
-/

namespace Ahos

/-- A call of the paging code. -/
inductive PageOp where
  | map (physAddr virtAddr flags : ℕ)
  | unmap (virtAddr : ℕ)
deriving DecidableEq, Repr

/-- The page that a call is about. -/
def PageOp.virt : PageOp → ℕ
  | .map _ virtAddr _ => virtAddr
  | .unmap virtAddr => virtAddr

/-- The arguments are 32-bit words, and the page is below the window. -/
def PageOp.Below : PageOp → Prop
  | .map physAddr virtAddr flags =>
    physAddr < 4294967296 ∧ virtAddr < 0xffc00000 ∧ flags < 4294967296
  | .unmap virtAddr => virtAddr < 0xffc00000

instance (op : PageOp) : Decidable op.Below := by
  cases op <;> unfold PageOp.Below <;> infer_instance

/-- The call. -/
def callPage (s : Machine) : PageOp → Outcome (Bool × Machine)
  | .map physAddr virtAddr flags => mapPage s physAddr virtAddr flags
  | .unmap virtAddr => unmapPage s virtAddr

/-- A machine together with the results of the calls so far. -/
structure PageRun where
  machine : Machine
  rets : List Bool

/-- One call of a run. -/
def PageRun.step (r : PageRun) (op : PageOp) : Outcome PageRun := do
  let (ret, machine) ← callPage r.machine op
  return ⟨machine, r.rets ++ [ret]⟩

/-! ## Both modes -/

/-- The call on physical memory. -/
def callPhys (mem : ℕ → ℕ) (pfa : PfaMeta) (dir : ℕ) : PageOp → Outcome (Bool × (ℕ → ℕ) × PfaMeta)
  | .map physAddr virtAddr flags => mapPhys mem pfa dir physAddr virtAddr flags
  | .unmap virtAddr => .ok ((unmapPhys mem dir virtAddr).1, (unmapPhys mem dir virtAddr).2, pfa)

section Call

variable {s : Machine} {dir : ℕ} {rest : List (ℕ × ℕ)} {op : PageOp}

theorem callPage_eq (hr : Reaches s dir) (hinv : PagingInv s.mem s.pfa dir rest)
    (hop : op.virt < 0xffc00000) :
    callPage s op = (callPhys s.mem s.pfa dir op).map
      fun r => (r.1, { s with mem := r.2.1, pfa := r.2.2 }) := by
  cases op with
  | map physAddr virtAddr flags => exact mapPage_eq hr hinv (hop.trans (by omega))
  | unmap virtAddr => exact unmapPage_eq hr hinv hop

/-- The abstract page map after a call with the given result. -/
def applyCall (m : ℕ → Option (ℕ × ℕ)) : PageOp × Bool → ℕ → Option (ℕ × ℕ)
  | (.map physAddr virtAddr flags, true) =>
    Function.update m virtAddr (some (physAddr, flags ||| maskPresent))
  | (.unmap virtAddr, true) => Function.update m virtAddr none
  | (_, false) => m

/-- The pages below the window, for which the tables agree with an abstract map. -/
def Represents (mem : ℕ → ℕ) (dir : ℕ) (m : ℕ → Option (ℕ × ℕ)) : Prop :=
  ∀ v < 0xffc00000, v % 4096 = 0 → walk mem dir v = m v

/-- A call keeps the invariant and follows the abstract map. -/
theorem callPhys_spec {mem mem' : ℕ → ℕ} {pfa pfa' : PfaMeta} {ret : Bool}
    (hinv : PagingInv mem pfa dir rest) (hop : op.Below)
    (h : callPhys mem pfa dir op = .ok (ret, mem', pfa')) :
    PagingInv mem' pfa' dir rest ∧ (ret = false → mem' = mem ∧ pfa' = pfa) ∧
      Represents mem' dir (applyCall (walk mem dir) (op, ret)) := by
  cases op with
  | map physAddr virtAddr flags =>
    obtain ⟨hphys, hvirt, hflags⟩ := hop
    obtain ⟨hfalse, htrue⟩ := mapPhys_spec hinv hvirt hphys hflags h
    cases ret with
    | false =>
      obtain ⟨rfl, rfl⟩ := hfalse rfl
      exact ⟨hinv, fun _ => ⟨rfl, rfl⟩, fun v _ _ => rfl⟩
    | true =>
      obtain ⟨-, -, hinv', hwalk⟩ := htrue rfl
      refine ⟨hinv', by simp, fun v hv hva => ?_⟩
      rw [hwalk v hv hva, applyCall, Function.update_apply]
  | unmap virtAddr =>
    obtain ⟨rfl, rfl, rfl⟩ := Prod.mk.inj (Except.ok.inj h) |>.imp_right Prod.mk.inj
    obtain ⟨-, hfalse, htrue⟩ := unmapPhys_spec hinv hop
    cases hret : (unmapPhys mem dir virtAddr).1 with
    | false =>
      rw [hfalse hret]
      exact ⟨hinv, fun _ => ⟨rfl, rfl⟩, fun v _ _ => rfl⟩
    | true =>
      obtain ⟨hinv', hwalk⟩ := htrue hret
      refine ⟨hinv', by simp, fun v hv hva => ?_⟩
      rw [hwalk v hv hva, applyCall, Function.update_apply]

theorem PageOp.Below.virt_lt (h : op.Below) : op.virt < 0xffc00000 := by
  cases op with
  | map physAddr virtAddr flags => exact h.2.1
  | unmap virtAddr => exact h

/-- **One call** of the code keeps the invariant, follows the abstract map, and changes nothing
when it returns `false`. -/
theorem callPage_spec {s' : Machine} {ret : Bool} (hr : Reaches s dir)
    (hinv : PagingInv s.mem s.pfa dir rest) (hop : op.Below)
    (h : callPage s op = .ok (ret, s')) :
    Reaches s' dir ∧ PagingInv s'.mem s'.pfa dir rest ∧ (ret = false → s' = s) ∧
      Represents s'.mem dir (applyCall (walk s.mem dir) (op, ret)) := by
  rw [callPage_eq hr hinv hop.virt_lt] at h
  cases hphys : callPhys s.mem s.pfa dir op with
  | error e =>
    rw [hphys] at h
    cases h
  | ok x =>
    obtain ⟨ret', mem', pfa'⟩ := x
    rw [hphys] at h
    obtain ⟨rfl, rfl⟩ := Prod.mk.inj (Except.ok.inj h)
    obtain ⟨hinv', hfalse, hrep⟩ := callPhys_spec hinv hop hphys
    refine ⟨hr.update _ _, hinv', fun hret => ?_, hrep⟩
    obtain ⟨rfl, rfl⟩ := hfalse hret
    rfl

/-- A call acts in the same way on every map that the tables represent. -/
theorem Represents.applyCall {mem mem' : ℕ → ℕ} {m : ℕ → Option (ℕ × ℕ)} {call : PageOp × Bool}
    (h : Represents mem dir m) (h' : Represents mem' dir (applyCall (walk mem dir) call)) :
    Represents mem' dir (Ahos.applyCall m call) := by
  intro v hv hva
  have hm := h v hv hva
  rw [h' v hv hva]
  obtain ⟨op, ret⟩ := call
  cases ret with
  | false => cases op <;> exact hm
  | true => cases op <;> simp [Ahos.applyCall, Function.update_apply, hm]

end Call

/-! ## Runs -/

/-- **A run follows the abstract map**: the tables represent what the successful calls, applied
in order, make of it. -/
theorem run_refines {dir : ℕ} {rest : List (ℕ × ℕ)} {ops : List PageOp} {r r' : PageRun}
    {m : ℕ → Option (ℕ × ℕ)} (hr : Reaches r.machine dir)
    (hinv : PagingInv r.machine.mem r.machine.pfa dir rest) (hrep : Represents r.machine.mem dir m)
    (hops : ∀ op ∈ ops, op.Below) (hrun : Run.run PageRun.step r ops = .ok r') :
    Reaches r'.machine dir ∧ PagingInv r'.machine.mem r'.machine.pfa dir rest ∧
      ∃ rets, r'.rets = r.rets ++ rets ∧
        Represents r'.machine.mem dir ((ops.zip rets).foldl applyCall m) := by
  induction ops generalizing r m with
  | nil =>
    obtain rfl := Except.ok.inj hrun
    exact ⟨hr, hinv, [], by simp, hrep⟩
  | cons op ops ih =>
    rw [Run.run_cons, PageRun.step, Run.bind_eq_ok] at hrun
    obtain ⟨t, hstep, hrun⟩ := hrun
    rw [Run.bind_eq_ok] at hstep
    obtain ⟨⟨ret, s'⟩, hcall, hstep⟩ := hstep
    obtain rfl := Except.ok.inj hstep
    obtain ⟨hr', hinv', -, hrep'⟩ := callPage_spec hr hinv (hops op (List.mem_cons_self ..)) hcall
    obtain ⟨hr'', hinv'', rets, hrets, hrep''⟩ := ih hr' hinv' (hrep.applyCall hrep')
      (fun o ho => hops o (List.mem_cons_of_mem _ ho)) hrun
    exact ⟨hr'', hinv'', ret :: rets, by simp [hrets], hrep''⟩

/-- What a run does to physical memory. -/
structure PhysRun where
  mem : ℕ → ℕ
  pfa : PfaMeta
  rets : List Bool

/-- One call on physical memory. -/
def PhysRun.step (dir : ℕ) (r : PhysRun) (op : PageOp) : Outcome PhysRun := do
  let (ret, mem, pfa) ← callPhys r.mem r.pfa dir op
  return ⟨mem, pfa, r.rets ++ [ret]⟩

/-- The physical part of a run. -/
def PageRun.phys (r : PageRun) : PhysRun := ⟨r.machine.mem, r.machine.pfa, r.rets⟩

/-- A run in either mode is the run on physical memory. -/
theorem run_phys {dir : ℕ} {rest : List (ℕ × ℕ)} {ops : List PageOp} {r : PageRun}
    (hr : Reaches r.machine dir) (hinv : PagingInv r.machine.mem r.machine.pfa dir rest)
    (hops : ∀ op ∈ ops, op.Below) :
    (Run.run PageRun.step r ops).map PageRun.phys = Run.run (PhysRun.step dir) r.phys ops := by
  induction ops generalizing r with
  | nil => rfl
  | cons op ops ih =>
    have hop := hops op (List.mem_cons_self ..)
    have hcall := callPage_eq hr hinv hop.virt_lt
    rw [Run.run_cons, Run.run_cons]
    unfold PageRun.step PhysRun.step
    rw [hcall]
    simp only [PageRun.phys]
    cases hphys : callPhys r.machine.mem r.machine.pfa dir op with
    | error e => rfl
    | ok x =>
      obtain ⟨ret, mem, pfa⟩ := x
      obtain ⟨hinv', -, -⟩ := callPhys_spec hinv hop hphys
      exact ih (r := ⟨{ r.machine with mem := mem, pfa := pfa }, r.rets ++ [ret]⟩)
        (hr.update mem pfa) hinv' fun o ho => hops o (List.mem_cons_of_mem _ ho)

/-- The machine with paging enabled, on the directory at `dir`. -/
def Machine.window (m : Machine) (dir : ℕ) : Machine :=
  { m with pageDirectory := 0xfffff000, pagingEnabled := true, cr3 := dir, cr0Pg := true }

/-- The machine before paging is enabled, with the directory at `dir`. -/
def Machine.identity (m : Machine) (dir : ℕ) : Machine :=
  { m with pageDirectory := dir, pagingEnabled := false, cr0Pg := false }

/-- **The window and the physical addresses lead to the same entries.** In every directory that
maps itself, the window shows the tables of the present entries, and its last page the directory.
And every sequence of calls below the window has the same results and leaves the same physical
memory in both modes, from every machine whose directory and tables are exclusively owned. -/
theorem paging_modes_agree :
    (∀ (mem : ℕ → ℕ) (dir : ℕ), SelfMapped mem dir → ∀ d < 1024,
      (∀ t < 1024, isPresent (pde mem dir d) = true →
        translate mem dir (0xffc00000 + d * 4096 + 4 * t) =
          some ((pde mem dir d &&& maskAddr) + 4 * t)) ∧
      translate mem dir (0xfffff000 + 4 * d) = some (dir + 4 * d)) ∧
    ∀ (m : Machine) (dir : ℕ) (rest : List (ℕ × ℕ)) (ops : List PageOp),
      PagingInv m.mem m.pfa dir rest → (∀ op ∈ ops, op.Below) →
      (Run.run PageRun.step ⟨m.window dir, []⟩ ops).map PageRun.phys =
        (Run.run PageRun.step ⟨m.identity dir, []⟩ ops).map PageRun.phys := by
  refine ⟨fun mem dir hself d hd => ⟨fun t ht hp => ?_, translate_directory hself hd⟩, ?_⟩
  · exact translate_window hself hd ht hp
  · intro m dir rest ops hinv hops
    rw [run_phys (r := ⟨m.window dir, []⟩) (.window rfl rfl rfl rfl) hinv hops,
      run_phys (r := ⟨m.identity dir, []⟩) (.identity rfl rfl rfl) hinv hops]
    rfl

/-- A directory at `0x200000` that maps itself and has one empty table, at `0x201000`. -/
def smallDirectory : Machine where
  mem := fun a => if a = 0x200ffc then 0x20001b else if a = 0x200004 then 0x20101b else 0
  pfa := [⟨0x200000, [.used, .used, .free]⟩]
  pageDirectory := 0x200000
  pagingEnabled := false
  cr3 := 0
  cr0Pg := false

theorem pagingInv_smallDirectory :
    PagingInv smallDirectory.mem smallDirectory.pfa 0x200000 [] where
  owned := by
    have htables : tables smallDirectory.mem 0x200000 = [(0x201000, 1)] := by decide +kernel
    rw [htables]
    exact ⟨⟨by simp [shape, smallDirectory], by simp [shape, smallDirectory, PfaRegion.nbPages],
      by simp [shape, smallDirectory]⟩, [⟨0x200000, [.used, .used, .free]⟩], rfl, by decide +kernel⟩
  self := ⟨by decide +kernel, by decide +kernel⟩

/-- Mapping a page, mapping another one with other flags, and unmapping the first one twice. -/
theorem paging_modes_agree_run :
    let ops : List PageOp :=
      [.map 0x300000 0x400000 0x1a, .map 0x300000 0x401000 0x2, .unmap 0x400000, .unmap 0x400000]
    (Run.run PageRun.step ⟨smallDirectory.window 0x200000, []⟩ ops).map PageRun.phys =
        (Run.run PageRun.step ⟨smallDirectory.identity 0x200000, []⟩ ops).map PageRun.phys ∧
      ((Run.run PageRun.step ⟨smallDirectory.window 0x200000, []⟩ ops).map PageRun.rets).toOption =
        some [true, false, true, false] :=
  ⟨paging_modes_agree.2 smallDirectory 0x200000 [] _ pagingInv_smallDirectory (by decide),
    by decide +kernel⟩

end Ahos
