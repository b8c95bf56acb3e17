import Ahos.Kernel.Symbol.Line
import Ahos.Kernel.Symbol.Panic

/-!
# The text of the symbol map

Both passes of `symbol_init` look for line ends with a search that stops at a NUL, and the second
pass writes into the text while it walks over it. Each line is taken apart and put back: the text is
as before at the end of every step, and the two passes find the same lines. Whether they stay inside
the module is another question.
-/

namespace Ahos

/-! ## Searches, backwards -/

section Search

variable {c : UInt8} {mem : List UInt8} {p q : ℕ}

theorem strchrFrom_eq_some {bytes : List UInt8} (h : strchrFrom c bytes p = .ok (some q)) :
    ∃ w post, bytes = w ++ c :: post ∧ 0 ∉ w ∧ c ∉ w ∧ q = p + w.length := by
  induction bytes generalizing p with
  | nil => cases h
  | cons b bytes ih =>
    rw [strchrFrom] at h
    split_ifs at h with hnul hc
    · cases h
    · rw [Except.ok.injEq, Option.some_inj] at h
      exact ⟨[], bytes, by rw [hc]; rfl, by simp, by simp, by simp [h]⟩
    · obtain ⟨w, post, rfl, hw, hcw, hq⟩ := ih h
      refine ⟨b :: w, post, rfl, ?_, ?_, ?_⟩
      · rw [List.mem_cons, not_or]
        exact ⟨Ne.symm hnul, hw⟩
      · rw [List.mem_cons, not_or]
        exact ⟨Ne.symm hc, hcw⟩
      · rw [hq, List.length_cons]
        omega

theorem take_append_of_drop {w post : List UInt8} (h : mem.drop p = w ++ c :: post) :
    mem = mem.take p ++ (w ++ c :: post) ∧ p = (mem.take p).length := by
  have hlen := congrArg List.length h
  simp only [List.length_drop, List.length_append, List.length_cons] at hlen
  refine ⟨?_, ?_⟩
  · rw [← h, List.take_append_drop]
  · rw [List.length_take]
    omega

/-- What a search has found splits the memory. -/
theorem strchr_eq_some (h : strchr mem p c = .ok (some q)) :
    ∃ pre w post, mem = pre ++ (w ++ c :: post) ∧ p = pre.length ∧ 0 ∉ w ∧ c ∉ w ∧
      q = p + w.length := by
  obtain ⟨w, post, hdrop, hnul, hw, hq⟩ := strchrFrom_eq_some h
  obtain ⟨hmem, hp⟩ := take_append_of_drop hdrop
  exact ⟨mem.take p, w, post, hmem, hp, hnul, hw, hq⟩

/-- A character behind a place splits the memory where it stands first. -/
theorem exists_first (h : c ∈ mem.drop p) :
    ∃ pre w post, mem = pre ++ (w ++ c :: post) ∧ p = pre.length ∧ c ∉ w := by
  obtain ⟨w, post, hdrop, hw⟩ := List.eq_append_cons_of_mem h
  obtain ⟨hmem, hp⟩ := take_append_of_drop hdrop
  exact ⟨mem.take p, w, post, hmem, hp, hw⟩

end Search

/-! ## A line is put back -/

/-- What `parse_line` returns for a line. -/
def lineResult (entry : Outcome Unit) (line : List UInt8) : Outcome (Option Symbol) :=
  (parseLineInto entry (line ++ [0]) 0).map Prod.fst

section Line

variable {entry : Outcome Unit} {line : List UInt8}

theorem lineResult_of_uniform {res : Outcome (Option Symbol)}
    (h : ∀ pre post, parseLineInto entry (pre ++ (line ++ 0 :: post)) pre.length =
      res.map fun sym => (sym, pre ++ (line ++ 0 :: post))) : lineResult entry line = res := by
  have hline : parseLineInto entry (line ++ [0]) 0 = res.map fun sym => (sym, line ++ [0]) :=
    h [] []
  rw [lineResult, hline]
  cases res <;> rfl

/-- **What `parse_line` returns depends on the line only**, and the memory is as before. -/
theorem parseLineInto_lineResult (entry : Outcome Unit) (hnul : 0 ∉ line) (pre post : List UInt8) :
    parseLineInto entry (pre ++ (line ++ 0 :: post)) pre.length =
      (lineResult entry line).map fun sym => (sym, pre ++ (line ++ 0 :: post)) := by
  obtain ⟨res, hres⟩ : ∃ res : Outcome (Option Symbol), ∀ pre post,
      parseLineInto entry (pre ++ (line ++ 0 :: post)) pre.length =
        res.map fun sym => (sym, pre ++ (line ++ 0 :: post)) := by
    by_cases hstores : StoresName line
    · by_cases hfields : ∃ name type addr rest, Fields line name type addr rest
      · obtain ⟨name, type, addr, rest, h⟩ := hfields
        refine ⟨entry >>= fun _ => if AllHex addr then if 8 < rest.length then .ok none
          else if AllHex rest then .ok (some ⟨hexValue addr, hexValue rest,
            name ++ List.replicate (symbolMaxLen - name.length) 0⟩)
          else panic "abort" else panic "abort", fun pre post => ?_⟩
        rw [(parseLineInto_eq entry hnul rfl).1 hstores,
          @Fields.parseLine pre post line _ name type addr rest h hnul rfl]
        cases entry with
        | error halt => rfl
        | ok written =>
          simp only [Run.ok_bind]
          split_ifs <;> rfl
      · push Not at hfields
        refine ⟨entry >>= fun _ => .ok none, fun pre post => ?_⟩
        rw [(parseLineInto_eq entry hnul rfl).1 hstores, parseLine_no_fields hnul rfl hfields]
        cases entry <;> rfl
    · exact ⟨.ok none, fun pre post => (parseLineInto_eq entry hnul rfl).2 hstores⟩
  rw [lineResult_of_uniform hres, hres]

/-- An entry that can be written. -/
theorem parseLine_lineResult (hnul : 0 ∉ line) (pre post : List UInt8) :
    parseLine (pre ++ (line ++ 0 :: post)) pre.length =
      (lineResult (.ok ()) line).map fun sym => (sym, pre ++ (line ++ 0 :: post)) :=
  parseLineInto_lineResult (.ok ()) hnul pre post

/-- An entry that cannot be written halts on the lines that store their name. -/
theorem lineResult_eq (entry : Outcome Unit) (hnul : 0 ∉ line) :
    (StoresName line → lineResult entry line = entry >>= fun _ => lineResult (.ok ()) line) ∧
    (¬ StoresName line → lineResult entry line = .ok none) := by
  have hall := @parseLineInto_eq [] [] line 0 entry hnul rfl
  simp only [List.nil_append] at hall
  constructor
  · intro hstores
    rw [lineResult, hall.1 hstores, lineResult, parseLine]
    cases entry <;> rfl
  · intro hstores
    rw [lineResult, hall.2 hstores]
    rfl

/-- **The accepted lines**, and the others: the kernel stops, but it never reads behind the line. -/
theorem lineResult_accepted (hnul : 0 ∉ line) :
    (Accepted line ↔ ∃ sym, lineResult (.ok ()) line = .ok (some sym)) ∧
      lineResult (.ok ()) line ≠ .error .outOfBounds := by
  by_cases hfields : ∃ name type addr rest, Fields line name type addr rest
  · obtain ⟨name, type, addr, rest, h⟩ := hfields
    have hres : lineResult (.ok ()) line = if AllHex addr then if 8 < rest.length then .ok none
        else if AllHex rest then .ok (some ⟨hexValue addr, hexValue rest,
          name ++ List.replicate (symbolMaxLen - name.length) 0⟩)
        else panic "abort" else panic "abort" := by
      refine lineResult_of_uniform fun pre post => ?_
      have hline := @Fields.parseLine pre post line _ name type addr rest h hnul rfl
      rw [parseLine] at hline
      rw [hline]
      split_ifs <;> rfl
    have haccepted : Accepted line ↔ AllHex addr ∧ rest.length ≤ 8 ∧ AllHex rest := by
      constructor
      · rintro ⟨name', type', addr', rest', h', haddr, hle, hrest⟩
        obtain ⟨rfl, rfl, rfl⟩ := h.unique h'
        exact ⟨haddr, hle, hrest⟩
      · exact fun hparts => ⟨name, type, addr, rest, h, hparts⟩
    rw [hres, haccepted]
    split_ifs with haddr hlong hrest
    · simp [Nat.not_le.mpr hlong]
    · simp [haddr, Nat.le_of_not_lt hlong, hrest]
    · simp [hrest, panic]
    · simp [haddr, panic]
  · have hno : ∀ name type addr rest, ¬ Fields line name type addr rest := by
      simpa only [not_exists] using hfields
    have hres : lineResult (.ok ()) line = .ok none :=
      lineResult_of_uniform fun pre post => parseLine_no_fields hnul rfl hno
    rw [hres]
    refine ⟨iff_of_false ?_ (by simp), by simp⟩
    rintro ⟨name, type, addr, rest, h, -⟩
    exact hno name type addr rest h

end Line

section Steps

variable {env : SymEnv} {s t : SymState}

/-- What follows in the loop of `parse_symbol_map` once the line is put back. -/
def afterLine (env : SymEnv) (s : SymState) (cells : List (Option Symbol)) (eol symIndex : ℕ) :
    Option Symbol → Outcome SymState
  | none => .ok { s with point := .failed }
  | some sym => do
    let cells ← storeSymbol cells symIndex sym
    return { s with
      point := if eol + 1 < env.mapLen then .parse (eol + 1) (symIndex + 1)
        else .parsed (symIndex + 1)
      symMap := { s.symMap with symbols := .live cells } }

/-- **A round of the second pass**: the line is parsed, and what follows starts from the text as it
was. -/
theorem parseStep_line {pre w post : List UInt8} {cells : List (Option Symbol)} {i : ℕ}
    (hmem : s.mem = pre ++ (w ++ lf :: post)) (hnul : 0 ∉ w) (hlf : lf ∉ w) :
    parseStep env s cells pre.length i =
      lineResult (accessCell cells i) w >>= afterLine env s cells (pre.length + w.length) i := by
  have hwrite : ∀ x y : UInt8, writeCell (pre ++ (w ++ x :: post)) (pre.length + w.length) y =
      .ok (pre ++ (w ++ y :: post)) := by
    intro x y
    rw [← List.append_assoc, writeCell_at (by simp), List.append_assoc]
  obtain ⟨point, mem, sm⟩ := s
  simp only at hmem
  subst hmem
  simp only [parseStep, strchr_found rfl (show lf ≠ 0 by decide) hnul hlf, hwrite,
    parseLineInto_lineResult _ hnul, Run.ok_bind]
  cases lineResult (accessCell cells i) w with
  | error e => rfl
  | ok sym =>
    cases sym with
    | none => simp only [Except.map, Run.ok_bind, hwrite]; rfl
    | some sym => simp only [Except.map, Run.ok_bind, hwrite]; rfl

theorem afterLine_mem {cells : List (Option Symbol)} {eol symIndex : ℕ} {sym : Option Symbol}
    (h : afterLine env s cells eol symIndex sym = .ok t) : t.mem = s.mem := by
  cases sym with
  | none =>
    obtain rfl := Except.ok.inj h
    rfl
  | some sym =>
    obtain ⟨cells', -, h⟩ := Run.bind_eq_ok.mp h
    obtain rfl := Except.ok.inj h
    rfl

/-- A round of the second pass puts its line back. -/
theorem parseStep_mem {cells : List (Option Symbol)} {ptr symIndex : ℕ}
    (h : parseStep env s cells ptr symIndex = .ok t) : t.mem = s.mem := by
  obtain ⟨found, heol, -⟩ := Run.bind_eq_ok.mp h
  cases found with
  | none =>
    simp only [parseStep, heol, Run.ok_bind] at h
    split_ifs at h
    obtain rfl := Except.ok.inj h
    rfl
  | some eol =>
    obtain ⟨pre, w, post, hmem, rfl, hnul, hlf, -⟩ := strchr_eq_some heol
    rw [parseStep_line hmem hnul hlf] at h
    obtain ⟨sym, -, h⟩ := Run.bind_eq_ok.mp h
    exact afterLine_mem h

/-- Every step leaves the text as it was. -/
theorem SymState.step_mem (h : s.step env = .ok t) : t.mem = s.mem := by
  obtain ⟨point, mem, sm⟩ := s
  cases point with
  | start =>
    simp only [SymState.step] at h
    split_ifs at h <;> (obtain rfl := Except.ok.inj h; rfl)
  | count ptr =>
    obtain ⟨_ | eol, heol, h⟩ := Run.bind_eq_ok.mp h
    · simp only at h
      split_ifs at h
      obtain rfl := Except.ok.inj h
      rfl
    · obtain rfl := Except.ok.inj h
      rfl
  | allocated =>
    obtain ⟨nb, _ | cells | _⟩ := sm
    · cases h
    · simp only [SymState.step] at h
      split_ifs at h <;> (obtain rfl := Except.ok.inj h; rfl)
    · cases h
  | parse ptr symIndex =>
    obtain ⟨nb, _ | cells | _⟩ := sm
    · cases h
    · exact parseStep_mem h
    · cases h
  | parsed symIndex =>
    simp only [SymState.step] at h
    split_ifs at h <;> (obtain rfl := Except.ok.inj h; rfl)
  | alloc | failed | fail | returned =>
    obtain rfl := Except.ok.inj h
    rfl

/-- So does every run, from any state on. -/
theorem SymState.Reaches.mem_eq (h : s.Reaches env t) : t.mem = s.mem :=
  h.invariant (fun _ _ hmem hstep => (SymState.step_mem hstep).trans hmem) rfl

end Steps

/-- **Parsing leaves the symbol map as it was.** Whatever the memory holds, each byte of the symbol
map and of what follows it has its value again at the end of every line, and so whenever
`symbol_init` returns. -/
theorem symbol_init_restores_text {env : SymEnv} {mem : List UInt8} {s : SymState}
    (hreach : (SymState.start mem).Reaches env s) : s.mem = mem :=
  hreach.mem_eq

/-- The map of two records is loaded and put back. -/
theorem symbol_init_restores_text_two :
    ∃ s, (SymState.start (symbolText [shortRecord, nextRecord] ++ [0x00])).Reaches
        ⟨true, 16, true⟩ s ∧
      s.point = .returned true ∧ s.symMap.nbSyms = 2 ∧
      s.mem = symbolText [shortRecord, nextRecord] ++ [0x00] :=
  have hreach := reaches_returned [shortRecord, nextRecord] (by decide) [0x00] (by decide)
  ⟨_, hreach, rfl, rfl, symbol_init_restores_text hreach⟩

end Ahos
