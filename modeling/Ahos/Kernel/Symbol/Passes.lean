import Ahos.Kernel.Symbol.Text

/-!
# The two passes

`symbol_init` counts the lines of the symbol map in one loop and parses them in another one, which
is written differently. The second loop finds the lines that the first one has counted, and the
entry of each line is below the number of lines. Whether the array has an entry for each line is
decided by the size that `kmalloc` is asked for.
-/

namespace Ahos

/-! ## Lines -/

/-- At `ptr` starts a line, which ends with a line feed. -/
structure LineAt (mem : List UInt8) (ptr : ℕ) (line : List UInt8) : Prop where
  split : ∃ pre post, mem = pre ++ (line ++ lf :: post) ∧ ptr = pre.length
  nul : 0 ∉ line
  lf : lf ∉ line

/-- The lines from `ptr` on, up to the end of the symbol map. -/
inductive Lines (mapLen : ℕ) (mem : List UInt8) : ℕ → List (List UInt8) → Prop where
  | last {ptr : ℕ} {line : List UInt8} (hline : LineAt mem ptr line)
      (hend : ¬ ptr + line.length + 1 < mapLen) : Lines mapLen mem ptr [line]
  | more {ptr : ℕ} {line : List UInt8} {lines : List (List UInt8)} (hline : LineAt mem ptr line)
      (hnext : ptr + line.length + 1 < mapLen)
      (hrest : Lines mapLen mem (ptr + line.length + 1) lines) :
      Lines mapLen mem ptr (line :: lines)

section Lines

variable {mapLen ptr eol : ℕ} {mem line : List UInt8} {lines : List (List UInt8)}

theorem LineAt.strchr (h : LineAt mem ptr line) :
    strchr mem ptr Ahos.lf = .ok (some (ptr + line.length)) := by
  obtain ⟨pre, post, rfl, rfl⟩ := h.split
  exact strchr_found rfl (by decide) h.nul h.lf

theorem exists_lineAt (h : Ahos.strchr mem ptr lf = .ok (some eol)) :
    ∃ line, LineAt mem ptr line ∧ eol = ptr + line.length := by
  obtain ⟨pre, line, post, hmem, hptr, hnul, hlf, heol⟩ := strchr_eq_some h
  exact ⟨line, ⟨⟨pre, post, hmem, hptr⟩, hnul, hlf⟩, heol⟩

theorem LineAt.unique {line' : List UInt8} (h : LineAt mem ptr line) (h' : LineAt mem ptr line') :
    line = line' := by
  obtain ⟨pre, post, rfl, rfl⟩ := h.split
  obtain ⟨pre', post', heq, hlen⟩ := h'.split
  exact (split_unique h.lf h'.lf (List.append_inj heq hlen).2).1

theorem Lines.unique {lines' : List (List UInt8)} (h : Lines mapLen mem ptr lines)
    (h' : Lines mapLen mem ptr lines') : lines = lines' := by
  induction h generalizing lines' with
  | last hline hend =>
    cases h' with
    | last hline' => rw [hline.unique hline']
    | more hline' hnext =>
      obtain rfl := hline.unique hline'
      exact absurd hnext hend
  | more hline hnext hrest ih =>
    cases h' with
    | last hline' hend =>
      obtain rfl := hline.unique hline'
      exact absurd hnext hend
    | more hline' hnext' hrest' =>
      obtain rfl := hline.unique hline'
      rw [ih hrest']

/-- The first line, and what follows it. -/
theorem Lines.cases_first (h : Lines mapLen mem ptr lines) :
    ∃ line rest, lines = line :: rest ∧ LineAt mem ptr line ∧
      (rest = [] ∧ ¬ ptr + line.length + 1 < mapLen ∨
        ptr + line.length + 1 < mapLen ∧ Lines mapLen mem (ptr + line.length + 1) rest) := by
  cases h with
  | last hline hend => exact ⟨_, _, rfl, hline, .inl ⟨rfl, hend⟩⟩
  | more hline hnext hrest => exact ⟨_, _, rfl, hline, .inr ⟨hnext, hrest⟩⟩

/-- There are at most as many lines as bytes. -/
theorem Lines.length_le (h : Lines mapLen mem ptr lines) (hptr : ptr < mapLen) :
    ptr + lines.length ≤ mapLen := by
  induction h with
  | last => exact hptr
  | more hline hnext hrest ih =>
    have hle := ih hnext
    rw [List.length_cons]
    omega

/-- The lines of a list of records. -/
theorem lines_symbolText (records : List SymRecord) (hne : records ≠ []) (pre rest : List UInt8) :
    Lines (pre.length + (symbolText records).length) (pre ++ (symbolText records ++ rest))
      pre.length (records.map SymRecord.body) := by
  induction records generalizing pre with
  | nil => exact absurd rfl hne
  | cons r records ih =>
    have hline : LineAt (pre ++ (symbolText (r :: records) ++ rest)) pre.length r.body :=
      ⟨⟨pre, symbolText records ++ rest, by simp [symbolText_cons, SymRecord.line], rfl⟩,
        r.body_notMem.1, r.body_notMem.2⟩
    have hnext := @next_line_lt ⟨true, pre.length + (symbolText (r :: records)).length, true⟩ pre r
      records rfl
    by_cases hmore : records = []
    · subst hmore
      exact .last hline fun h => hnext.mp h rfl
    · refine .more hline (hnext.mpr hmore) ?_
      have htail := ih hmore (pre ++ r.line)
      rw [List.length_append, r.length_line, List.append_assoc, ← List.append_assoc r.line] at htail
      rw [symbolText_cons, List.length_append, r.length_line, ← Nat.add_assoc, ← Nat.add_assoc]
      rwa [← Nat.add_assoc] at htail

/-- A line that `parse_line` takes a symbol from is accepted. -/
theorem accepted_of_parseLine (hnul : 0 ∉ line) {pre post mem' : List UInt8} {sym : Symbol}
    (h : parseLine (pre ++ (line ++ 0 :: post)) pre.length = .ok (some sym, mem')) :
    Accepted line := by
  rw [parseLine_lineResult hnul] at h
  rw [(lineResult_accepted hnul).1]
  cases hres : lineResult (.ok ()) line with
  | error halt =>
    rw [hres] at h
    cases h
  | ok res =>
    rw [hres] at h
    exact ⟨sym, by rw [(Prod.mk.inj (Except.ok.inj h)).1]⟩

theorem SymRecord.accepted (r : SymRecord) : Accepted r.body :=
  accepted_of_parseLine r.body_notMem.1 (@parseLine_eq [] [] r 0 rfl)

/-- The same for a line of the map, once its line feed is overwritten. -/
theorem LineAt.accepted (h : LineAt mem ptr line) {cut mem' : List UInt8} {sym : Symbol}
    (hcut : writeCell mem (ptr + line.length) 0 = .ok cut)
    (hparse : parseLine cut ptr = .ok (some sym, mem')) : Accepted line := by
  obtain ⟨pre, post, rfl, rfl⟩ := h.split
  have hwrite : writeCell (pre ++ (line ++ Ahos.lf :: post)) (pre.length + line.length) 0 =
      .ok (pre ++ (line ++ 0 :: post)) := by
    rw [← List.append_assoc, writeCell_at (by simp), List.append_assoc]
  obtain rfl := Except.ok.inj (hcut.symm.trans hwrite)
  exact accepted_of_parseLine h.nul hparse

end Lines

/-! ## What a round does -/

section Round

variable {env : SymEnv} {mem line : List UInt8} {nb ptr i : ℕ} {cells : List (Option Symbol)}

theorem storeSymbol_ok (hi : i < cells.length) (hfilled : Filled cells i) (sym : Symbol) :
    ∃ cells', storeSymbol cells i sym = .ok cells' := by
  rw [storeSymbol, writeCell, if_pos hi, Run.ok_bind]
  by_cases hzero : i = 0
  · rw [if_pos hzero]
    exact ⟨_, rfl⟩
  · obtain ⟨last, hlast, -⟩ := hfilled (i - 1) (by omega)
    have hread : readCell (cells.set i (some sym)) (i - 1) = .ok (some last) := by
      rw [readCell_eq_ok, List.getElem?_set_ne (by omega), hlast]
    rw [if_neg hzero, hread, Run.ok_bind]
    simp only [writeCell, List.length_set]
    rw [if_pos (by omega)]
    exact ⟨_, rfl⟩

/-- A round of the second pass over a line. -/
theorem LineAt.step (h : LineAt mem ptr line) :
    SymState.step env ⟨.parse ptr i, mem, ⟨nb, .live cells⟩⟩ =
      lineResult (accessCell cells i) line >>=
        afterLine env ⟨.parse ptr i, mem, ⟨nb, .live cells⟩⟩ cells (ptr + line.length) i := by
  obtain ⟨pre, post, rfl, rfl⟩ := h.split
  exact parseStep_line rfl h.nul h.lf

/-- **A line that is accepted fills in its entry**, if the array has it. -/
theorem LineAt.step_accepted (h : LineAt mem ptr line) (haccepted : Accepted line)
    (hi : i < cells.length) (hfilled : Filled cells i) :
    ∃ cells', cells'.length = cells.length ∧ Filled cells' (i + 1) ∧
      SymState.step env ⟨.parse ptr i, mem, ⟨nb, .live cells⟩⟩ =
        .ok ⟨if ptr + line.length + 1 < env.mapLen then .parse (ptr + line.length + 1) (i + 1)
          else .parsed (i + 1), mem, ⟨nb, .live cells'⟩⟩ := by
  obtain ⟨sym, hsym⟩ := (lineResult_accepted h.nul).1.mp haccepted
  obtain ⟨cells', hstore⟩ := storeSymbol_ok hi hfilled sym
  have hline := parseLine_lineResult h.nul [] []
  rw [hsym] at hline
  refine ⟨cells', storeSymbol_length hstore,
    storeSymbol_filled hfilled (parseLine_accepted hline).1 hstore, ?_⟩
  rw [h.step, accessCell, if_pos hi, hsym, Run.ok_bind, afterLine, hstore]
  rfl

/-- **A line that stores its name needs its entry.** -/
theorem LineAt.step_overrun (h : LineAt mem ptr line) (hstores : StoresName line)
    (hi : cells.length ≤ i) :
    SymState.step env ⟨.parse ptr i, mem, ⟨nb, .live cells⟩⟩ = .error .outOfBounds := by
  rw [h.step, (lineResult_eq _ h.nul).1 hstores, accessCell, if_neg (Nat.not_lt.mpr hi)]
  rfl

/-- Otherwise the round stays in the array. -/
theorem LineAt.step_ne_outOfBounds (h : LineAt mem ptr line)
    (hfits : StoresName line → i < cells.length) (hfilled : Filled cells i) :
    SymState.step env ⟨.parse ptr i, mem, ⟨nb, .live cells⟩⟩ ≠ .error .outOfBounds := by
  rw [h.step]
  by_cases hstores : StoresName line
  · have hi := hfits hstores
    obtain ⟨-, hne⟩ := lineResult_accepted h.nul
    rw [accessCell, if_pos hi]
    refine Run.bind_ne_error hne fun sym _ => ?_
    cases sym with
    | none => exact fun h => by cases h
    | some sym =>
      obtain ⟨cells', hstore⟩ := storeSymbol_ok hi hfilled sym
      rw [afterLine, hstore]
      exact fun h => by cases h
  · rw [(lineResult_eq _ h.nul).2 hstores]
    intro herror
    cases herror

end Round

/-! ## What the passes keep -/

section Passes

variable {env : SymEnv} {mem : List UInt8} {s t u : SymState} {lines : List (List UInt8)}

/-- What holds of the lines at each point. -/
def SymState.Tracks (env : SymEnv) (s : SymState) : Prop :=
  match s.point with
  | .count ptr => s.symMap.nbSyms ≤ ptr ∧ ptr < env.mapLen ∧
    ∃ done : List (List UInt8), done.length = s.symMap.nbSyms ∧
      ∀ todo, Lines env.mapLen s.mem ptr todo → Lines env.mapLen s.mem 0 (done ++ todo)
  | .alloc => 0 < env.mapLen ∧
    ∃ lines, Lines env.mapLen s.mem 0 lines ∧ s.symMap.nbSyms = lines.length
  | .allocated => ∃ lines, Lines env.mapLen s.mem 0 lines ∧
    s.symMap = ⟨lines.length, env.array lines.length⟩
  | .parse ptr symIndex => ∃ done todo : List (List UInt8), ∃ cells,
    Lines env.mapLen s.mem 0 (done ++ todo) ∧ Lines env.mapLen s.mem ptr todo ∧
      (∀ line ∈ done, Accepted line) ∧ symIndex = done.length ∧
      s.symMap = ⟨(done ++ todo).length, .live cells⟩ ∧
      cells.length = symbolRoom (done ++ todo).length ∧ env.array (done ++ todo).length ≠ .null
  | .parsed symIndex => ∃ lines, Lines env.mapLen s.mem 0 lines ∧
    s.symMap.nbSyms = lines.length ∧ symIndex = lines.length ∧
      lines.length ≤ symbolRoom lines.length
  | _ => True

theorem SymState.Tracks.step (hlen : env.mapLen < 4294967296) (h : s.Tracks env)
    (hs : s.step env = .ok t) : t.Tracks env := by
  have hmem := SymState.step_mem hs
  cases SymState.step_cases hs with
  | start _ hpos => exact ⟨Nat.zero_le _, Nat.pos_of_ne_zero hpos, [], rfl, fun todo h => h⟩
  | @count ptr eol bytes sm heol =>
    obtain ⟨hle, hlt, done, hdone, hlines⟩ := h
    simp only at hle hlt hdone hlines
    obtain ⟨line, hline, rfl⟩ := exists_lineAt heol
    have hadd : Word32.add sm.nbSyms 1 = sm.nbSyms + 1 := Word32.add_of_lt (by omega)
    have hcount : (done ++ [line]).length = sm.nbSyms + 1 := by
      rw [List.length_append, hdone, List.length_singleton]
    simp only [SymState.Tracks]
    split_ifs with hnext
    · refine ⟨by simp only [hadd]; omega, hnext, done ++ [line], by simp only [hadd, hcount], ?_⟩
      intro todo htodo
      rw [List.append_assoc]
      exact hlines _ (.more hline hnext htodo)
    · exact ⟨Nat.zero_lt_of_lt hlt, done ++ [line], hlines _ (.last hline hnext),
        by simp only [hadd, hcount]⟩
  | alloc =>
    obtain ⟨-, lines, hlines, hnb⟩ := h
    simp only at hnb
    exact ⟨lines, hlines, by rw [hnb]⟩
  | @parse bytes nb cells hne =>
    obtain ⟨lines, hlines, hmap⟩ := h
    obtain ⟨rfl, harray⟩ := SymMap.mk.inj hmap
    refine ⟨[], lines, cells, hlines, hlines, by simp, rfl, rfl, ?_, ?_⟩
    · rw [SymEnv.array] at harray
      split_ifs at harray
      rw [SymArray.live.inj harray, List.length_replicate]
      rfl
    · rw [List.nil_append, ← harray]
      simp
  | lastLine heol =>
    -- the first pass has found the end of this line
    obtain ⟨done, todo, cells, -, htodo, -⟩ := h
    obtain ⟨line, rest, -, hline, -⟩ := htodo.cases_first
    rw [hline.strchr] at heol
    cases heol
  | @accept ptr symIndex eol bytes bytes₁ bytes₂ bytes₃ nb cells cells' sym heol hcut hentry hparse
      hrestore hstore =>
    obtain ⟨done, todo, stored, hall, htodo, haccepted, rfl, hmap, hroom, harray⟩ := h
    obtain ⟨rfl, hlive⟩ := SymMap.mk.inj hmap
    obtain rfl := SymArray.live.inj hlive
    simp only at hmem
    subst hmem
    obtain ⟨line, rest, rfl, hline, hcases⟩ := htodo.cases_first
    obtain rfl : eol = ptr + line.length :=
      Option.some.inj (Except.ok.inj (heol.symm.trans hline.strchr))
    have hline_accepted := hline.accepted hcut hparse
    have hsplit : done ++ line :: rest = done ++ [line] ++ rest := by simp
    have hdone : ∀ l ∈ done ++ [line], Accepted l := by
      intro l hl
      rcases List.mem_append.mp hl with hl | hl
      · exact haccepted l hl
      · rwa [List.mem_singleton.mp hl]
    have hlength := storeSymbol_length hstore
    simp only [SymState.Tracks]
    obtain ⟨rfl, hend⟩ | ⟨hnext, hrest⟩ := hcases
    · rw [if_neg hend]
      refine ⟨done ++ [line], hall, rfl, by simp, ?_⟩
      rw [← hroom]
      simp only [List.length_append, List.length_singleton]
      omega
    · rw [if_pos hnext]
      rw [hsplit] at hall hroom harray ⊢
      exact ⟨done ++ [line], rest, cells', hall, hrest, hdone, by simp, rfl,
        hlength.trans hroom, harray⟩
  | skip | noLine | refuse | reject | oops | done | free | fail | stay => exact trivial

theorem SymState.Reaches.tracks (hlen : env.mapLen < 4294967296)
    (hreach : (SymState.start mem).Reaches env s) : s.Tracks env :=
  hreach.invariant (fun _ _ h hs => h.step hlen hs) trivial

/-- **The first pass counts the lines.** -/
theorem count_reaches_alloc {ptr : ℕ} (nb : ℕ) {symbols : SymArray}
    (hlines : Lines env.mapLen mem ptr lines) (hlt : nb + lines.length < 4294967296) :
    SymState.Reaches env ⟨.count ptr, mem, ⟨nb, symbols⟩⟩
      ⟨.alloc, mem, ⟨nb + lines.length, symbols⟩⟩ := by
  have hstep : ∀ {ptr : ℕ} (nb : ℕ) {line : List UInt8}, LineAt mem ptr line →
      nb + 1 < 4294967296 → SymState.step env ⟨.count ptr, mem, ⟨nb, symbols⟩⟩ =
        .ok ⟨if ptr + line.length + 1 < env.mapLen then .count (ptr + line.length + 1) else .alloc,
          mem, ⟨nb + 1, symbols⟩⟩ := by
    intro ptr nb line hline hnb
    simp only [SymState.step, hline.strchr, Run.ok_bind, Word32.add_of_lt hnb]
    rfl
  induction hlines generalizing nb with
  | last hline hend =>
    have hlast := hstep nb hline hlt
    rw [if_neg hend] at hlast
    exact .head hlast .refl
  | @more ptr line lines hline hnext hrest ih =>
    rw [List.length_cons] at hlt
    have hfirst := hstep nb hline (by omega)
    rw [if_pos hnext] at hfirst
    have htail := ih (nb + 1) (by omega)
    have hcount : nb + 1 + lines.length = nb + (line :: lines).length := by
      rw [List.length_cons]
      omega
    rw [hcount] at htail
    exact .head hfirst htail

/-- **The second pass runs through the lines that are accepted**, as long as the array has entries
for them. -/
theorem reaches_accepted (done : List (List UInt8)) {todo : List (List UInt8)} {nb ptr i : ℕ}
    {cells : List (Option Symbol)} (hne : todo ≠ [])
    (hlines : Lines env.mapLen mem ptr (done ++ todo)) (haccepted : ∀ line ∈ done, Accepted line)
    (hroom : i + done.length ≤ cells.length) (hfilled : Filled cells i) :
    ∃ ptr' cells', SymState.Reaches env ⟨.parse ptr i, mem, ⟨nb, .live cells⟩⟩
        ⟨.parse ptr' (i + done.length), mem, ⟨nb, .live cells'⟩⟩ ∧
      Lines env.mapLen mem ptr' todo ∧ cells'.length = cells.length ∧
      Filled cells' (i + done.length) := by
  induction done generalizing ptr i cells with
  | nil => exact ⟨ptr, cells, .refl, hlines, rfl, hfilled⟩
  | cons line done ih =>
    obtain ⟨line', rest, heq, hline, hcases⟩ := hlines.cases_first
    rw [List.cons_append] at heq
    obtain ⟨rfl, rfl⟩ := List.cons.inj heq
    rw [List.length_cons] at hroom ⊢
    obtain ⟨cells₁, hlen₁, hfilled₁, hstep⟩ := @LineAt.step_accepted env mem line nb ptr i cells
      hline (haccepted line List.mem_cons_self) (by omega) hfilled
    obtain ⟨hnil, -⟩ | ⟨hnext, hrest⟩ := hcases
    · exact absurd (List.append_eq_nil_iff.mp hnil).2 hne
    · rw [if_pos hnext] at hstep
      obtain ⟨ptr', cells', hreach, htodo, hlen', hfilled'⟩ :=
        ih hrest (fun l hl => haccepted l (List.mem_cons_of_mem line hl)) (by omega) hfilled₁
      have hcount : i + 1 + done.length = i + (done.length + 1) := by omega
      rw [hcount] at hreach hfilled'
      exact ⟨ptr', cells', .head hstep hreach, htodo, hlen'.trans hlen₁, hfilled'⟩

/-- From the call of `kmalloc` to the first round of the second pass. -/
theorem alloc_reaches_parse (hpos : 0 < env.mapLen) (hlines : Lines env.mapLen mem 0 lines)
    (harray : env.array lines.length ≠ .null) (symbols : SymArray) :
    SymState.Reaches env ⟨.alloc, mem, ⟨lines.length, symbols⟩⟩ ⟨.parse 0 0, mem,
      ⟨lines.length, .live (List.replicate (symbolRoom lines.length) none)⟩⟩ := by
  have hlive : env.array lines.length =
      .live (List.replicate (symbolRoom lines.length) none) := by
    unfold SymEnv.array at harray ⊢
    split_ifs at harray ⊢ with h
    · rfl
    · exact absurd rfl harray
  have halloc : SymState.step env ⟨.alloc, mem, ⟨lines.length, symbols⟩⟩ =
      .ok ⟨.allocated, mem, ⟨lines.length, env.array lines.length⟩⟩ := rfl
  rw [hlive] at halloc
  have hne : ¬ (env.mapLen = 0 ∨ lines.length = 0) := by
    obtain ⟨line, rest, rfl, -⟩ := hlines.cases_first
    rintro (hzero | hzero)
    · omega
    · cases hzero
  have hallocated : SymState.step env ⟨.allocated, mem,
      ⟨lines.length, .live (List.replicate (symbolRoom lines.length) none)⟩⟩ =
      .ok ⟨.parse 0 0, mem,
        ⟨lines.length, .live (List.replicate (symbolRoom lines.length) none)⟩⟩ := if_neg hne
  exact .head halloc (.head hallocated .refl)

/-- **The second pass over lines that are all accepted**, in an array with an entry for each. -/
theorem alloc_reaches_parsed (hpos : 0 < env.mapLen) (hlines : Lines env.mapLen mem 0 lines)
    (harray : env.array lines.length ≠ .null) (haccepted : ∀ line ∈ lines, Accepted line)
    (hroom : lines.length ≤ symbolRoom lines.length) (symbols : SymArray) :
    ∃ cells, SymState.Reaches env ⟨.alloc, mem, ⟨lines.length, symbols⟩⟩
      ⟨.parsed lines.length, mem, ⟨lines.length, .live cells⟩⟩ := by
  have hparse := alloc_reaches_parse hpos hlines harray symbols
  obtain ⟨line, rest, hcons, -⟩ := hlines.cases_first
  obtain ⟨done, last, rfl⟩ : ∃ done last, lines = done ++ [last] := by
    obtain hnil | h := List.eq_nil_or_concat' lines
    · rw [hcons] at hnil
      cases hnil
    · exact h
  have hcount : (done ++ [last]).length = done.length + 1 := by simp
  obtain ⟨ptr, cells, hreach, hlast, hlen, hfilled⟩ := @reaches_accepted env mem done [last]
    (done ++ [last]).length 0 0 (List.replicate (symbolRoom (done ++ [last]).length) none)
    (by simp) hlines (fun l hl => haccepted l (List.mem_append_left _ hl))
    (by rw [List.length_replicate]; omega) (fun i hi => absurd hi (Nat.not_lt_zero i))
  rw [List.length_replicate] at hlen
  rw [Nat.zero_add] at hreach hfilled
  obtain ⟨line, rest, heq, hline, hcases⟩ := hlast.cases_first
  obtain ⟨rfl, rfl⟩ := List.cons.inj heq
  obtain ⟨cells', -, -, hstep⟩ := @LineAt.step_accepted env mem last (done ++ [last]).length ptr
    done.length cells hline (haccepted last (by simp)) (by omega) hfilled
  obtain ⟨-, hend⟩ | ⟨-, hrest⟩ := hcases
  · rw [if_neg hend, ← hcount] at hstep
    exact ⟨cells', hparse.trans (hreach.trans (.head hstep .refl))⟩
  · obtain ⟨line, rest, hnil, -⟩ := hrest.cases_first
    cases hnil

/-! ## The passes agree -/

/-- From the call of `kmalloc` on, with `nb_syms` lines counted, the second pass is in step with the
first one. -/
structure PassesAgree (env : SymEnv) (s : SymState) : Prop where
  /-- When the second pass looks for the end of a line there is one, and the entry of the line is
  below `nb_syms`. -/
  inside : ∀ u, s.Reaches env u → ∀ ptr symIndex, u.point = .parse ptr symIndex →
    symIndex < s.symMap.nbSyms ∧ ∃ eol, strchr u.mem ptr lf = .ok (some eol)
  /-- It is never through its last line with another number of entries. -/
  count : ∀ u, s.Reaches env u → ∀ symIndex, u.point = .parsed symIndex →
    symIndex = s.symMap.nbSyms ∧ u.symMap.nbSyms = s.symMap.nbSyms
  /-- If `kmalloc` succeeds and every line parses, it gets there, and the call returns true. -/
  ends : env.array s.symMap.nbSyms ≠ .null → ∀ lines, Lines env.mapLen s.mem 0 lines →
    (∀ line ∈ lines, Accepted line) → ∃ mem' sm,
      s.Reaches env ⟨.parsed s.symMap.nbSyms, mem', sm⟩ ∧ s.Reaches env ⟨.returned true, mem', sm⟩

/-- **Exactly when the two passes agree.** Let the first pass be complete, with `nb_syms` lines
counted. The second pass finds the end of each line and keeps its entry below `nb_syms`, and it
ends with `nb_syms` entries if every line parses, if and only if there is no second pass, or a line
does not parse, or the array has at most `2 ^ 31` bytes. -/
theorem symbol_passes_agree_iff (hlen : env.mapLen < 4294967296)
    (hcount : (SymState.start mem).Reaches env s) (hpoint : s.point = .alloc) :
    PassesAgree env s ↔
      env.array s.symMap.nbSyms = .null ∨
        (∃ lines, Lines env.mapLen s.mem 0 lines ∧ ∃ line ∈ lines, ¬ Accepted line) ∨
        symbolSize * s.symMap.nbSyms ≤ 2 ^ 31 := by
  have htracks := hcount.tracks hlen
  rw [SymState.Tracks, hpoint] at htracks
  obtain ⟨hpos, lines, hlines, hnb⟩ := htracks
  -- whatever the second pass does, it walks over these lines
  have hwalk : ∀ u, s.Reaches env u → u.Tracks env ∧ u.mem = s.mem := fun u hu =>
    ⟨SymState.Reaches.tracks hlen (hcount.trans hu), hu.mem_eq⟩
  have hparsed : ∀ u, s.Reaches env u → ∀ symIndex, u.point = .parsed symIndex →
      u.symMap.nbSyms = lines.length ∧ symIndex = lines.length ∧
        lines.length ≤ symbolRoom lines.length := by
    intro u hu symIndex hpoint
    obtain ⟨htracks, hmem⟩ := hwalk u hu
    rw [SymState.Tracks, hpoint, hmem] at htracks
    obtain ⟨lines', hlines', hcounted⟩ := htracks
    rwa [hlines'.unique hlines] at hcounted
  constructor
  · intro h
    by_contra hcond
    simp only [not_or, not_exists, not_and, not_not] at hcond
    obtain ⟨harray, haccepted, hsize⟩ := hcond
    obtain ⟨mem', sm, hreach, -⟩ := h.ends harray lines hlines (haccepted lines hlines)
    rw [hnb] at hsize
    exact hsize (le_symbolRoom_iff.mp (hparsed _ hreach _ rfl).2.2)
  · intro hcond
    refine ⟨fun u hu ptr symIndex hparse => ?_, fun u hu symIndex hpoint => ?_,
      fun harray lines' hlines' haccepted => ?_⟩
    · obtain ⟨htracks, hmem⟩ := hwalk u hu
      rw [SymState.Tracks, hparse, hmem] at htracks
      obtain ⟨done, todo, cells, hall, htodo, -, rfl, -⟩ := htracks
      obtain ⟨line, rest, rfl, hline, -⟩ := htodo.cases_first
      rw [hnb, ← hall.unique hlines, hmem]
      refine ⟨?_, _, hline.strchr⟩
      simp only [List.length_append, List.length_cons]
      omega
    · obtain ⟨hnb', hindex, -⟩ := hparsed u hu symIndex hpoint
      rw [hnb]
      exact ⟨hindex, hnb'⟩
    · obtain rfl := hlines'.unique hlines
      have hsize : symbolSize * lines'.length ≤ 2 ^ 31 := by
        obtain hnull | ⟨lines, hlines, line, hline, hnot⟩ | hsize := hcond
        · exact absurd hnull harray
        · rw [hlines.unique hlines'] at hline
          exact absurd (haccepted line hline) hnot
        · rwa [hnb] at hsize
      obtain ⟨point, bytes, nb, symbols⟩ := s
      simp only at hpoint hnb
      subst hpoint hnb
      obtain ⟨cells, hreach⟩ := alloc_reaches_parsed hpos hlines harray haccepted
        (le_symbolRoom_iff.mpr hsize) symbols
      refine ⟨_, _, hreach, hreach.trans (.head ?_ .refl)⟩
      exact if_neg (not_not.mpr rfl)

/-- The map of two records: both lines parse, and the call returns true with two symbols. -/
theorem symbol_passes_agree_two :
    ∃ mem' sm, (SymState.start (symbolText [shortRecord, nextRecord] ++ [0x00])).Reaches
        ⟨true, 16, true⟩ ⟨.parsed 2, mem', sm⟩ ∧
      (SymState.start (symbolText [shortRecord, nextRecord] ++ [0x00])).Reaches
        ⟨true, 16, true⟩ ⟨.returned true, mem', sm⟩ := by
  have hcount := start_reaches_alloc [shortRecord, nextRecord] (by decide) [0x00]
  have hagree := (symbol_passes_agree_iff (by decide) hcount rfl).mpr (.inr (.inr (by decide)))
  have hlines := lines_symbolText [shortRecord, nextRecord] (by decide) [] [0x00]
  obtain ⟨mem', sm, hparsed, hreturned⟩ := hagree.ends (by decide) _ hlines fun line hline => by
    obtain ⟨r, -, rfl⟩ := List.mem_map.mp hline
    exact r.accepted
  exact ⟨mem', sm, hcount.trans hparsed, hcount.trans hreturned⟩

/-- Records that are too many for the array: the second pass does not get through its lines. -/
theorem not_passesAgree_replicate {n : ℕ} (hn : n < 4294967296) (hne : n ≠ 0)
    (hsize : 2 ^ 31 < symbolSize * n) (harray : Word32.mul n symbolSize ≠ 0)
    (htext : (symbolText (List.replicate n shortRecord)).length < 4294967296) :
    ∃ s, (SymState.start (symbolText (List.replicate n shortRecord) ++ [0x00])).Reaches
        ⟨true, (symbolText (List.replicate n shortRecord)).length, true⟩ s ∧ s.point = .alloc ∧
      ¬ PassesAgree ⟨true, (symbolText (List.replicate n shortRecord)).length, true⟩ s := by
  have hrecords : List.replicate n shortRecord ≠ [] := by
    rwa [Ne, List.replicate_eq_nil_iff]
  have hcount := start_reaches_alloc (List.replicate n shortRecord) hrecords [0x00]
  rw [List.length_replicate, Word32.wrap_of_lt hn] at hcount
  have hlines := lines_symbolText (List.replicate n shortRecord) hrecords [] [0x00]
  refine ⟨_, hcount, rfl, fun h => ?_⟩
  obtain hnull | ⟨lines, hlines', line, hline, hnot⟩ | hle :=
    (symbol_passes_agree_iff htext hcount rfl).mp h
  · simp [SymEnv.array, harray] at hnull
  · rw [List.length_nil, Nat.zero_add] at hlines
    rw [hlines'.unique hlines] at hline
    obtain ⟨r, -, rfl⟩ := List.mem_map.mp hline
    exact hnot r.accepted
  · exact absurd hle (Nat.not_le.mpr hsize)

/-- With 41297763 lines the second pass runs out of an array of 56 bytes. -/
theorem symbol_passes_disagree :
    ¬ ∀ (env : SymEnv) (mem : List UInt8) (s : SymState), env.mapLen < 4294967296 →
      (SymState.start mem).Reaches env s → s.point = .alloc → PassesAgree env s := by
  intro h
  have hlength : ∀ n, (symbolText (List.replicate n shortRecord)).length = 7 * n := by
    intro n
    induction n with
    | zero => rfl
    | succ n ih =>
      rw [List.replicate_succ, symbolText_cons, List.length_append, ih]
      have : shortRecord.line.length = 7 := rfl
      omega
  have htext : (symbolText (List.replicate 41297763 shortRecord)).length < 4294967296 := by
    rw [hlength]
    decide
  obtain ⟨s, hreach, hpoint, hnot⟩ := @not_passesAgree_replicate 41297763 (by decide) (by decide)
    (by decide) (by decide) htext
  exact hnot (h _ _ s htext hreach hpoint)

end Passes

end Ahos
