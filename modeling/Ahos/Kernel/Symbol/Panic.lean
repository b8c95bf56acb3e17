import Ahos.Kernel.Symbol.Defs

/-!
# The symbol table that the panic handler sees

`panic` looks up a name and addresses in the symbol table, and it can be entered while
`symbol_init` runs: interrupts are enabled. `sym_map.nb_syms` counts the lines before the table is
allocated, so from the first line on until the last one is parsed the table is not ready.
-/

namespace Ahos

/-- Each entry below `nb_syms` was filled in by a successful `parse_line`, in an array that is
allocated, and its name has an end. -/
def SymMap.Ready (sm : SymMap) : Prop :=
  ∀ i < sm.nbSyms, ∃ sym, sm.symbol i = .ok sym ∧ sym.name.length = symbolMaxLen ∧ 0 ∈ sym.name

/-- The name that `panic` looks up first. -/
def isrCommonStub : List UInt8 :=
  "isr_common_stub".toList.map (fun c => UInt8.ofNat c.toNat) ++ [0]

section Search

variable {sm : SymMap}

theorem strcmp_terminated {s₁ s₂ : List UInt8} (h₁ : 0 ∈ s₁) (h₂ : 0 ∈ s₂) :
    ∃ r, strcmp s₁ s₂ = .ok r := by
  induction s₁ generalizing s₂ with
  | nil => cases h₁
  | cons b₁ s₁ ih =>
    cases s₂ with
    | nil => cases h₂
    | cons b₂ s₂ =>
      by_cases heq : b₁ ≠ 0 ∧ b₁ = b₂
      · rw [strcmp, if_pos heq]
        apply ih
        · exact (List.mem_cons.mp h₁).resolve_left (Ne.symm heq.1)
        · exact (List.mem_cons.mp h₂).resolve_left (heq.2 ▸ Ne.symm heq.1)
      · obtain ⟨r, hr, -⟩ := @strcmp_cons b₁ b₂ s₁ s₂ heq
        exact ⟨r, hr⟩

/-- **`symbol_lookup` reads a table that is ready without a fault.** -/
theorem SymMap.Ready.lookup (h : sm.Ready) {name : List UInt8} (hname : 0 ∈ name) :
    ∃ res, symbolLookup sm name = .ok res := by
  have hloop : ∀ indices : List ℕ, (∀ i ∈ indices, i < sm.nbSyms) →
      ∃ res, symbolLookupLoop sm name indices = .ok res := by
    intro indices
    induction indices with
    | nil => exact fun _ => ⟨none, rfl⟩
    | cons i indices ih =>
      intro hlt
      obtain ⟨sym, hsym, -, hnul⟩ := h i (hlt i List.mem_cons_self)
      obtain ⟨r, hr⟩ := strcmp_terminated hname hnul
      rw [symbolLookupLoop, hsym, Run.ok_bind, hr, Run.ok_bind]
      by_cases hzero : r = 0
      · exact ⟨some sym, by rw [if_pos hzero]; rfl⟩
      · rw [if_neg hzero]
        exact ih fun j hj => hlt j (List.mem_cons_of_mem i hj)
  obtain ⟨b, bytes, rfl⟩ := List.exists_cons_of_ne_nil (List.ne_nil_of_mem hname)
  rw [symbolLookup, show readCell (b :: bytes) 0 = .ok b from rfl, Run.ok_bind]
  split_ifs
  · exact ⟨none, rfl⟩
  · exact ⟨none, rfl⟩
  · exact hloop _ fun i hi => List.mem_range.mp hi

/-- **`symbol_find` reads a table that is ready without a fault.** -/
theorem SymMap.Ready.find (h : sm.Ready) (addr : ℕ) : ∃ res, symbolFind sm addr = .ok res := by
  have hloop : ∀ (indices : List ℕ) (lastSym : Option Symbol), (∀ i ∈ indices, i < sm.nbSyms) →
      ∃ res, symbolFindLoop sm addr indices lastSym = .ok res := by
    intro indices
    induction indices with
    | nil => exact fun lastSym _ => ⟨lastSym, rfl⟩
    | cons i indices ih =>
      intro lastSym hlt
      obtain ⟨sym, hsym, -, -⟩ := h i (hlt i List.mem_cons_self)
      rw [symbolFindLoop, hsym, Run.ok_bind]
      by_cases habove : sym.addr > addr
      · exact ⟨lastSym, by rw [if_pos habove]; rfl⟩
      · rw [if_neg habove]
        exact ih (some sym) fun j hj => hlt j (List.mem_cons_of_mem i hj)
  unfold symbolFind
  split_ifs
  · exact ⟨none, rfl⟩
  · exact ⟨none, rfl⟩
  · obtain ⟨res, hres⟩ := hloop (List.range sm.nbSyms) none fun i hi => List.mem_range.mp hi
    rw [hres, Run.ok_bind]
    cases res with
    | none => exact ⟨none, rfl⟩
    | some lastSym =>
      dsimp only
      split_ifs
      · exact ⟨none, rfl⟩
      · exact ⟨some lastSym, rfl⟩

end Search

/-! ## The states of `symbol_init` -/

section Init

variable {env : SymEnv} {mem : List UInt8} {s t : SymState}

/-- Before the first line is counted, or without a first line: the table is empty. -/
def SymState.Empty (env : SymEnv) (mem : List UInt8) (s : SymState) : Prop :=
  s.mem = mem ∧ s.symMap.nbSyms = 0 ∧
    (s.point = .start ∨ (s.point = .count 0 ∧ env.loaded = true ∧ env.mapLen ≠ 0) ∨
      s.point = .fail ∨ s.point = .returned false)

theorem SymState.Empty.step
    (hcond : env.loaded = false ∨ env.mapLen = 0 ∨ ∀ eol, strchr mem 0 lf ≠ .ok (some eol))
    (h : s.Empty env mem) (hstep : SymStep env s t) : t.Empty env mem := by
  obtain ⟨point, bytes, sm⟩ := s
  obtain ⟨rfl, hnb, rfl | ⟨rfl, hloaded, hlen⟩ | rfl | rfl⟩ := h
  · cases hstep with
    | skip => exact ⟨rfl, hnb, .inr (.inr (.inr rfl))⟩
    | start hloaded hlen => exact ⟨rfl, rfl, .inr (.inl ⟨rfl, hloaded, hlen⟩)⟩
  · cases hstep with
    | noLine => exact ⟨rfl, hnb, .inr (.inr (.inl rfl))⟩
    | count heol =>
      rcases hcond with hcond | hcond | hcond
      · simp [hcond] at hloaded
      · exact absurd hcond hlen
      · exact absurd heol (hcond _)
  · cases hstep
    exact ⟨rfl, rfl, .inr (.inr (.inr rfl))⟩
  · cases hstep
    exact ⟨rfl, hnb, .inr (.inr (.inr rfl))⟩

/-- The entries of the table that were filled in. -/
def Filled (cells : List (Option Symbol)) (n : ℕ) : Prop :=
  ∀ i < n, ∃ sym, cells[i]? = some (some sym) ∧ sym.name.length = symbolMaxLen ∧ 0 ∈ sym.name

/-- What holds of the table at each point. -/
def SymState.TableInv (s : SymState) : Prop :=
  match s.point with
  | .start => s.symMap.nbSyms = 0
  | .parse _ symIndex => ∃ cells, s.symMap.symbols = .live cells ∧ Filled cells symIndex
  | .parsed symIndex => ∃ cells, s.symMap.symbols = .live cells ∧ Filled cells symIndex
  | .returned _ => s.symMap.Ready
  | _ => True

section Accepted

variable {line addr : ℕ} {name mem' : List UInt8} {sym : Symbol}

theorem parseLen_accepted (h : parseLen mem line addr name = .ok (some sym, mem')) :
    sym.name = name ∧ sym.addr = addr ∧ sym.len < 4294967296 := by
  obtain ⟨b, -, h⟩ := Run.bind_eq_ok.mp h
  split_ifs at h
  · cases h
    exact ⟨rfl, rfl, Nat.succ_pos _⟩
  · obtain ⟨len, -, h⟩ := Run.bind_eq_ok.mp h
    split_ifs at h
    · cases h
    · obtain ⟨value, hvalue, h⟩ := Run.bind_eq_ok.mp h
      cases h
      exact ⟨rfl, rfl, atohFrom_lt (by decide) hvalue⟩

theorem parseAddr_accepted (h : parseAddr mem line name = .ok (some sym, mem')) :
    sym.name = name ∧ sym.addr < 4294967296 ∧ sym.len < 4294967296 := by
  obtain ⟨_ | sep, -, h⟩ := Run.bind_eq_ok.mp h
  · cases h
  · obtain ⟨mem₁, -, h⟩ := Run.bind_eq_ok.mp h
    obtain ⟨len, -, h⟩ := Run.bind_eq_ok.mp h
    split_ifs at h
    · obtain ⟨mem₂, -, h⟩ := Run.bind_eq_ok.mp h
      cases h
    · obtain ⟨value, hvalue, h⟩ := Run.bind_eq_ok.mp h
      obtain ⟨mem₂, -, h⟩ := Run.bind_eq_ok.mp h
      obtain ⟨hname, haddr, hlen⟩ := parseLen_accepted h
      exact ⟨hname, haddr ▸ atohFrom_lt (by decide) hvalue, hlen⟩

/-- **A line that is accepted gives the symbol a name with an end**, and a 32-bit address and
length. -/
theorem parseLine_accepted (h : parseLine mem line = .ok (some sym, mem')) :
    (sym.name.length = symbolMaxLen ∧ 0 ∈ sym.name) ∧ sym.addr < 4294967296 ∧
      sym.len < 4294967296 := by
  obtain ⟨b, -, h⟩ := Run.bind_eq_ok.mp h
  split_ifs at h
  · cases h
  obtain ⟨_ | sep, -, h⟩ := Run.bind_eq_ok.mp h
  · cases h
  obtain ⟨mem₁, -, h⟩ := Run.bind_eq_ok.mp h
  obtain ⟨nameLen, -, h⟩ := Run.bind_eq_ok.mp h
  split_ifs at h
  · obtain ⟨mem₂, -, h⟩ := Run.bind_eq_ok.mp h
    cases h
  · obtain ⟨mem₂, -, h⟩ := Run.bind_eq_ok.mp h
    cases h
  · obtain ⟨name, hname, h⟩ := Run.bind_eq_ok.mp h
    obtain ⟨-, -, h⟩ := Run.bind_eq_ok.mp h
    obtain ⟨mem₂, -, h⟩ := Run.bind_eq_ok.mp h
    obtain ⟨_ | sep', -, h⟩ := Run.bind_eq_ok.mp h
    · cases h
    · obtain ⟨hcopy, hnumbers⟩ := parseAddr_accepted h
      have hlen := strncpyFrom_length hname
      refine ⟨?_, hnumbers⟩
      rw [hcopy]
      simp [hlen, symbolMaxLen]

end Accepted

/-- **A line that is accepted fills in the next entry.** -/
theorem storeSymbol_filled {cells cells' : List (Option Symbol)} {symIndex : ℕ} {sym : Symbol}
    (hfilled : Filled cells symIndex)
    (hsym : sym.name.length = symbolMaxLen ∧ 0 ∈ sym.name)
    (h : storeSymbol cells symIndex sym = .ok cells') : Filled cells' (symIndex + 1) := by
  obtain ⟨cells₁, hwrite, h⟩ := Run.bind_eq_ok.mp h
  obtain ⟨hlt, rfl⟩ := writeCell_ok hwrite
  have hfilled₁ : Filled (cells.set symIndex (some sym)) (symIndex + 1) := by
    intro i hi
    by_cases hlast : i = symIndex
    · exact ⟨sym, by rw [hlast, List.getElem?_set_self hlt], hsym⟩
    · rw [List.getElem?_set_ne (Ne.symm hlast)]
      exact hfilled i (by omega)
  split_ifs at h with hzero
  · obtain rfl := Except.ok.inj h
    exact hfilled₁
  · obtain ⟨_ | last, hread, h⟩ := Run.bind_eq_ok.mp h
    · cases h
    · obtain ⟨hprev, rfl⟩ := writeCell_ok h
      -- the name of the entry before stays
      rw [readCell_eq_ok] at hread
      intro i hi
      by_cases hlast : i = symIndex - 1
      · obtain ⟨sym', hsym', hname⟩ := hfilled₁ i hi
        rw [hlast, hread] at hsym'
        obtain rfl := Option.some.inj (Option.some.inj hsym')
        exact ⟨{ last with len := Word32.sub sym.addr last.addr },
          by rw [hlast, List.getElem?_set_self hprev], hname⟩
      · rw [List.getElem?_set_ne (Ne.symm hlast)]
        exact hfilled₁ i hi

theorem SymMap.ready_of_zero {sm : SymMap} (h : sm.nbSyms = 0) : sm.Ready := by
  intro i hi
  omega

theorem SymState.TableInv.step (h : s.TableInv) (hstep : SymStep env s t) : t.TableInv := by
  cases hstep with
  | skip => exact SymMap.ready_of_zero h
  | count =>
    simp only [SymState.TableInv]
    split_ifs <;> trivial
  | parse => exact ⟨_, rfl, fun i hi => absurd hi (Nat.not_lt_zero i)⟩
  | lastLine => exact h
  | accept heol hcut hentry hline hrestore hstore =>
    obtain ⟨cells, hlive, hfilled⟩ := h
    obtain rfl := SymArray.live.inj hlive
    have hfilled' := storeSymbol_filled hfilled (parseLine_accepted hline).1 hstore
    simp only [SymState.TableInv]
    split_ifs
    · exact ⟨_, rfl, hfilled'⟩
    · exact ⟨_, rfl, hfilled'⟩
  | done =>
    obtain ⟨cells, hlive, hfilled⟩ := h
    intro i hi
    obtain ⟨sym, hsym, hname⟩ := hfilled i hi
    refine ⟨sym, ?_, hname⟩
    simp only at hlive
    simp only [SymMap.symbol, hlive, readCell_eq_ok.mpr hsym, Run.ok_bind]
    rfl
  | fail => exact SymMap.ready_of_zero rfl
  | stay => exact h
  | start | noLine | alloc | refuse | reject | oops | free => exact trivial

theorem SymState.Reaches.tableInv (hreach : (SymState.start mem).Reaches env s) :
    s.TableInv :=
  hreach.invariant (fun _ _ hinv hstep => hinv.step (SymState.step_cases hstep)) rfl

/-- **Once `symbol_init` has returned, the table is ready**, whether it succeeded or not. -/
theorem ready_of_returned {result : Bool} (hreach : (SymState.start mem).Reaches env s)
    (hpoint : s.point = .returned result) : s.symMap.Ready := by
  have hinv := hreach.tableInv
  rw [SymState.TableInv, hpoint] at hinv
  exact hinv

/-- **Exactly when the panic handler never sees a half-built table.** In every state that
`symbol_init` goes through the table is ready, if and only if the function ends before it has
counted a line: without a symbol map, or with one whose first line has no line feed. -/
theorem panic_table_ready_iff (env : SymEnv) (mem : List UInt8) :
    (∀ s, (SymState.start mem).Reaches env s → s.symMap.Ready) ↔
      (env.loaded = false ∨ env.mapLen = 0 ∨ ∀ eol, strchr mem 0 lf ≠ .ok (some eol)) := by
  constructor
  · intro hready
    by_contra hcond
    rw [not_or, not_or] at hcond
    obtain ⟨hloaded, hlen, hfound⟩ := hcond
    push Not at hfound
    obtain ⟨eol, heol⟩ := hfound
    have hloaded : env.loaded = true := by simpa using hloaded
    -- the first line is counted, and there is no table yet
    have hstart : (SymState.start mem).step env = .ok ⟨.count 0, mem, ⟨0, .null⟩⟩ := by
      simp [SymState.step, SymState.start, hloaded, hlen]
    have hcount : ∃ point, (⟨.count 0, mem, ⟨0, .null⟩⟩ : SymState).step env =
        .ok ⟨point, mem, ⟨1, .null⟩⟩ := by
      simp only [SymState.step, heol, Run.ok_bind]
      exact ⟨_, rfl⟩
    obtain ⟨point, hcount⟩ := hcount
    have hreach : (SymState.start mem).Reaches env ⟨point, mem, ⟨1, .null⟩⟩ :=
      .head hstart (.head hcount .refl)
    obtain ⟨sym, hsym, -⟩ := hready _ hreach 0 Nat.one_pos
    cases hsym
  · intro hcond s hreach
    have hempty : s.Empty env mem :=
      hreach.invariant (fun _ _ h hstep => h.step hcond (SymState.step_cases hstep))
        ⟨rfl, rfl, .inl rfl⟩
    intro i hi
    rw [hempty.2.1] at hi
    exact absurd hi (Nat.not_lt_zero i)

/-- A symbol map of one line, `a b c`, for which `kmalloc` fails: `panic` is entered with one symbol
counted and no table, and its own search for a symbol faults. -/
theorem panic_table_half_built :
    ∃ s, (SymState.start [0x61, 0x20, 0x62, 0x20, 0x63, 0x20, 0x0a, 0x00]).Reaches
        ⟨true, 7, false⟩ s ∧
      s.step ⟨true, 7, false⟩ = panic notImplemented ∧ s.symMap.nbSyms = 1 ∧ ¬s.symMap.Ready ∧
      symbolLookup s.symMap isrCommonStub = .error (.pageFault 0) := by
  refine ⟨⟨.allocated, [0x61, 0x20, 0x62, 0x20, 0x63, 0x20, 0x0a, 0x00], ⟨1, .null⟩⟩, ?_, rfl, rfl,
    fun hready => ?_, ?_⟩
  · apply SymState.Reaches.head (t := ⟨.count 0, _, ⟨0, .null⟩⟩) rfl
    apply SymState.Reaches.head (t := ⟨.alloc, _, ⟨1, .null⟩⟩) rfl
    exact SymState.Reaches.head rfl .refl
  · obtain ⟨sym, hsym, -⟩ := hready 0 Nat.one_pos
    cases hsym
  · rfl

end Init

end Ahos
