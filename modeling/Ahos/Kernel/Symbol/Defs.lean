import Ahos.Libc
import Ahos.Mem.Kmalloc.Sizes
import Mathlib.Logic.Relation

/-!
# The symbol table

`symbol.c`. The symbol map is a text in memory, one symbol a line, which the parser splits by
writing NUL bytes over its separators and restoring them. `symbol_init` counts the lines,
allocates the table and fills it; the model is a machine that takes one line of the text in each
step, so that the table is visible at every moment at which an interrupt can come.
-/

namespace Ahos

/-- `sizeof(struct symbol)`. -/
def symbolSize : ℕ := 104

/-- `SYMBOL_MAX_LEN`. -/
def symbolMaxLen : ℕ := 96

/-- `struct symbol`. The name is an array of 96 characters. -/
structure Symbol where
  addr : ℕ
  len : ℕ
  name : List UInt8
deriving DecidableEq, Repr

/-- What `sym_map.symbols` points to. A cell of the array is `none` until all of its fields are
written. -/
inductive SymArray where
  | null
  | live (cells : List (Option Symbol))
  | freed
deriving DecidableEq, Repr

/-- `struct symbol_map`. -/
structure SymMap where
  nbSyms : ℕ
  symbols : SymArray
deriving DecidableEq, Repr

/-- The characters that the parser looks for. -/
def space : UInt8 := 0x20

/-- Line feed. -/
def lf : UInt8 := 0x0a

/-! ## A line -/

/-- `parse_line`, from the symbol length on: the symbol if the line is accepted. -/
def parseLen (mem : List UInt8) (line addr : ℕ) (name : List UInt8) :
    Outcome (Option Symbol × List UInt8) := do
  if (← readCell mem line) = 0 then
    return (some ⟨addr, 0, name⟩, mem)
  else if (← strlen mem line) > 8 then
    return (none, mem)
  else
    let len ← atoh mem line
    return (some ⟨addr, len, name⟩, mem)

/-- `parse_line`, from the symbol address on. -/
def parseAddr (mem : List UInt8) (line : ℕ) (name : List UInt8) :
    Outcome (Option Symbol × List UInt8) := do
  match ← strchr mem line space with
  | none => return (none, mem)
  | some sep =>
    let mem ← writeCell mem sep 0
    if (← strlen mem line) > 8 then
      let mem ← writeCell mem sep space
      return (none, mem)
    else
      let addr ← atoh mem line
      let mem ← writeCell mem sep space
      parseLen mem (sep + 1) addr name

/-- `parse_line`: the symbol if the line is accepted, and the memory afterwards. `entry` is the write
to the entry that the caller gives, which the copy of the name makes first. -/
def parseLineInto (entry : Outcome Unit) (mem : List UInt8) (line : ℕ) :
    Outcome (Option Symbol × List UInt8) := do
  if (← readCell mem line) = 0 then
    return (none, mem)
  else
    match ← strchr mem line space with
    | none => return (none, mem)
    | some sep =>
      let mem ← writeCell mem sep 0
      let nameLen ← strlen mem line
      if nameLen = 0 then
        let mem ← writeCell mem sep space
        return (none, mem)
      else if nameLen ≥ symbolMaxLen then
        let mem ← writeCell mem sep space
        return (none, mem)
      else
        let name ← strncpy mem line (symbolMaxLen - 1)
        entry
        let name := name ++ [0]
        let mem ← writeCell mem sep space
        let line := sep + 1
        -- the type is skipped
        match ← strchr mem line space with
        | none => return (none, mem)
        | some sep => parseAddr mem (sep + 1) name

/-- `parse_line` with an entry that can be written. -/
def parseLine (mem : List UInt8) (line : ℕ) : Outcome (Option Symbol × List UInt8) :=
  parseLineInto (.ok ()) mem line

/-! ## The whole map -/

/-- The arguments of `symbol_init`, and whether `kmalloc` has the memory that it is asked for. -/
structure SymEnv where
  /-- `symbol_map_start` is not `NULL`. -/
  loaded : Bool
  /-- `symbol_map_len`. -/
  mapLen : ℕ
  kmallocs : Bool

/-- The entries of the array for `nb` symbols: `kmalloc` is asked for a product in 32 bits, and
grants it only up to `2 ^ 31` bytes. -/
def symbolRoom (nb : ℕ) : ℕ := grantedSize (Word32.mul nb symbolSize) / symbolSize

/-- The array that `kmalloc` returns. For zero bytes it returns `NULL`. -/
def SymEnv.array (env : SymEnv) (nb : ℕ) : SymArray :=
  if env.kmallocs ∧ Word32.mul nb symbolSize ≠ 0 then .live (List.replicate (symbolRoom nb) none)
  else .null

/-- Where `symbol_init` is. -/
inductive SymPoint where
  | start
  /-- At the beginning of the loop that counts the lines. -/
  | count (ptr : ℕ)
  /-- Before the call of `kmalloc`. -/
  | alloc
  /-- Behind it. -/
  | allocated
  /-- At the beginning of the loop of `parse_symbol_map`. -/
  | parse (ptr symIndex : ℕ)
  /-- Behind this loop. -/
  | parsed (symIndex : ℕ)
  /-- `parse_symbol_map` has returned false. -/
  | failed
  /-- At the label `fail`. -/
  | fail
  | returned (result : Bool)
deriving DecidableEq, Repr

/-- `symbol_init` while it runs: `mem` is the memory from `symbol_map_start` on. -/
structure SymState where
  point : SymPoint
  mem : List UInt8
  symMap : SymMap
deriving DecidableEq, Repr

/-- The assignments to the table for a line that was accepted: the symbol itself, and the length of
the symbol before it. -/
def storeSymbol (cells : List (Option Symbol)) (symIndex : ℕ) (sym : Symbol) :
    Outcome (List (Option Symbol)) := do
  let cells ← writeCell cells symIndex (some sym)
  if symIndex = 0 then
    return cells
  else
    match ← readCell cells (symIndex - 1) with
    | none => .error .outOfBounds
    | some last =>
      writeCell cells (symIndex - 1) (some { last with len := Word32.sub sym.addr last.addr })

/-- Access to the entry `sm->symbols[sym_index]`. -/
def accessCell (cells : List (Option Symbol)) (symIndex : ℕ) : Outcome Unit :=
  if symIndex < cells.length then .ok () else .error .outOfBounds

/-- One round of the loop of `parse_symbol_map`. -/
def parseStep (env : SymEnv) (s : SymState) (cells : List (Option Symbol)) (ptr symIndex : ℕ) :
    Outcome SymState := do
  match ← strchr s.mem ptr lf with
  | none =>
    if Word32.sub env.mapLen ptr = 0 then
      return { s with point := .parsed symIndex }
    else
      -- `*eol = '\0'` with a null pointer
      .error (.pageFault 0)
  | some eol =>
    let mem ← writeCell s.mem eol 0
    let (sym, mem) ← parseLineInto (accessCell cells symIndex) mem ptr
    let mem ← writeCell mem eol lf
    match sym with
    | none => return { s with point := .failed, mem := mem }
    | some sym =>
      let cells ← storeSymbol cells symIndex sym
      return {
        point := if eol + 1 < env.mapLen then .parse (eol + 1) (symIndex + 1)
          else .parsed (symIndex + 1)
        mem := mem
        symMap := { s.symMap with symbols := .live cells } }

/-- `symbol_init`, one step. -/
def SymState.step (env : SymEnv) (s : SymState) : Outcome SymState :=
  match s.point with
  | .start =>
    if !env.loaded ∨ env.mapLen = 0 then
      .ok { s with point := .returned false }
    else
      .ok { s with point := .count 0, symMap := { s.symMap with nbSyms := 0 } }
  | .count ptr => do
    match ← strchr s.mem ptr lf with
    | none =>
      if Word32.sub env.mapLen ptr > 0 then return { s with point := .fail }
      else
        -- the loop would go on at the address behind the null pointer
        .error (.pageFault 1)
    | some eol =>
      return { s with
        point := if eol + 1 < env.mapLen then .count (eol + 1) else .alloc
        symMap := { s.symMap with nbSyms := Word32.add s.symMap.nbSyms 1 } }
  | .alloc =>
    .ok { s with
      point := .allocated
      symMap := { s.symMap with symbols := env.array s.symMap.nbSyms } }
  | .allocated =>
    match s.symMap.symbols with
    | .live _ =>
      if env.mapLen = 0 ∨ s.symMap.nbSyms = 0 then .ok { s with point := .failed }
      else .ok { s with point := .parse 0 0 }
    | _ => panic notImplemented
  | .parse ptr symIndex =>
    match s.symMap.symbols with
    | .live cells => parseStep env s cells ptr symIndex
    | _ => .error (.pageFault 0)
  | .parsed symIndex =>
    if symIndex ≠ s.symMap.nbSyms then .ok { s with point := .failed }
    else .ok { s with point := .returned true }
  | .failed => .ok { s with point := .fail, symMap := { s.symMap with symbols := .freed } }
  | .fail => .ok { s with point := .returned false, symMap := { s.symMap with nbSyms := 0 } }
  | .returned result => .ok { s with point := .returned result }

/-- **What a step can do.** -/
inductive SymStep (env : SymEnv) : SymState → SymState → Prop where
  | skip {mem sm} (h : env.loaded = false ∨ env.mapLen = 0) :
    SymStep env ⟨.start, mem, sm⟩ ⟨.returned false, mem, sm⟩
  | start {mem sm} (hloaded : env.loaded = true) (hlen : env.mapLen ≠ 0) :
    SymStep env ⟨.start, mem, sm⟩ ⟨.count 0, mem, { sm with nbSyms := 0 }⟩
  | noLine {ptr mem sm} (heol : strchr mem ptr lf = .ok none) :
    SymStep env ⟨.count ptr, mem, sm⟩ ⟨.fail, mem, sm⟩
  | count {ptr eol mem sm} (heol : strchr mem ptr lf = .ok (some eol)) :
    SymStep env ⟨.count ptr, mem, sm⟩
      ⟨if eol + 1 < env.mapLen then .count (eol + 1) else .alloc, mem,
        { sm with nbSyms := Word32.add sm.nbSyms 1 }⟩
  | alloc {mem sm} :
    SymStep env ⟨.alloc, mem, sm⟩ ⟨.allocated, mem, { sm with symbols := env.array sm.nbSyms }⟩
  | refuse {mem nb cells} (h : env.mapLen = 0 ∨ nb = 0) :
    SymStep env ⟨.allocated, mem, ⟨nb, .live cells⟩⟩ ⟨.failed, mem, ⟨nb, .live cells⟩⟩
  | parse {mem nb cells} (h : ¬(env.mapLen = 0 ∨ nb = 0)) :
    SymStep env ⟨.allocated, mem, ⟨nb, .live cells⟩⟩ ⟨.parse 0 0, mem, ⟨nb, .live cells⟩⟩
  | lastLine {ptr symIndex mem nb cells} (heol : strchr mem ptr lf = .ok none) :
    SymStep env ⟨.parse ptr symIndex, mem, ⟨nb, .live cells⟩⟩
      ⟨.parsed symIndex, mem, ⟨nb, .live cells⟩⟩
  | reject {ptr symIndex eol mem mem₁ mem₂ mem₃ nb cells}
    (heol : strchr mem ptr lf = .ok (some eol)) (hcut : writeCell mem eol 0 = .ok mem₁)
    (hline : parseLine mem₁ ptr = .ok (none, mem₂))
    (hrestore : writeCell mem₂ eol lf = .ok mem₃) :
    SymStep env ⟨.parse ptr symIndex, mem, ⟨nb, .live cells⟩⟩ ⟨.failed, mem₃, ⟨nb, .live cells⟩⟩
  | accept {ptr symIndex eol mem mem₁ mem₂ mem₃ nb cells cells' sym}
    (heol : strchr mem ptr lf = .ok (some eol)) (hcut : writeCell mem eol 0 = .ok mem₁)
    (hentry : symIndex < cells.length) (hline : parseLine mem₁ ptr = .ok (some sym, mem₂))
    (hrestore : writeCell mem₂ eol lf = .ok mem₃)
    (hstore : storeSymbol cells symIndex sym = .ok cells') :
    SymStep env ⟨.parse ptr symIndex, mem, ⟨nb, .live cells⟩⟩
      ⟨if eol + 1 < env.mapLen then .parse (eol + 1) (symIndex + 1) else .parsed (symIndex + 1),
        mem₃, ⟨nb, .live cells'⟩⟩
  | oops {symIndex mem sm} (h : symIndex ≠ sm.nbSyms) :
    SymStep env ⟨.parsed symIndex, mem, sm⟩ ⟨.failed, mem, sm⟩
  | done {mem sm} : SymStep env ⟨.parsed sm.nbSyms, mem, sm⟩ ⟨.returned true, mem, sm⟩
  | free {mem sm} : SymStep env ⟨.failed, mem, sm⟩ ⟨.fail, mem, { sm with symbols := .freed }⟩
  | fail {mem sm} : SymStep env ⟨.fail, mem, sm⟩ ⟨.returned false, mem, { sm with nbSyms := 0 }⟩
  | stay {result mem sm} :
    SymStep env ⟨.returned result, mem, sm⟩ ⟨.returned result, mem, sm⟩

/-- Where the write to the entry does not halt, it changes nothing. -/
theorem parseLine_of_ok {entry : Outcome Unit} {mem : List UInt8} {line : ℕ}
    {r : Option Symbol × List UInt8} (h : parseLineInto entry mem line = .ok r) :
    parseLine mem line = .ok r := by
  revert h
  refine Run.bind_ok_mono fun c => ?_
  split_ifs with hempty
  · exact id
  · refine Run.bind_ok_mono fun sep => ?_
    cases sep with
    | none => exact id
    | some sep =>
      refine Run.bind_ok_mono fun cut => Run.bind_ok_mono fun nameLen => ?_
      split_ifs with hzero hlong
      · exact id
      · exact id
      · refine Run.bind_ok_mono fun name h => ?_
        -- here the entry is written
        obtain ⟨-, -, h⟩ := Run.bind_eq_ok.mp h
        exact h

theorem parseStep_cases {env : SymEnv} {t : SymState} {mem : List UInt8} {nb ptr symIndex : ℕ}
    {cells : List (Option Symbol)}
    (h : parseStep env ⟨.parse ptr symIndex, mem, ⟨nb, .live cells⟩⟩ cells ptr symIndex = .ok t) :
    SymStep env ⟨.parse ptr symIndex, mem, ⟨nb, .live cells⟩⟩ t := by
  obtain ⟨_ | eol, heol, h⟩ := Run.bind_eq_ok.mp h
  · simp only at h
    split_ifs at h
    obtain rfl := Except.ok.inj h
    exact .lastLine heol
  · obtain ⟨mem₁, hcut, h⟩ := Run.bind_eq_ok.mp h
    obtain ⟨⟨_ | sym, mem₂⟩, hline, h⟩ := Run.bind_eq_ok.mp h
    · obtain ⟨mem₃, hrestore, h⟩ := Run.bind_eq_ok.mp h
      obtain rfl := Except.ok.inj h
      exact .reject heol hcut (parseLine_of_ok hline) hrestore
    · obtain ⟨mem₃, hrestore, h⟩ := Run.bind_eq_ok.mp h
      obtain ⟨cells', hstore, h⟩ := Run.bind_eq_ok.mp h
      obtain rfl := Except.ok.inj h
      obtain ⟨_, hwrite, -⟩ := Run.bind_eq_ok.mp hstore
      exact .accept heol hcut (writeCell_ok hwrite).1 (parseLine_of_ok hline) hrestore hstore

theorem SymState.step_cases {env : SymEnv} {s t : SymState} (h : s.step env = .ok t) :
    SymStep env s t := by
  obtain ⟨point, mem, sm⟩ := s
  cases point with
  | start =>
    simp only [SymState.step] at h
    split_ifs at h with hskip
    · obtain rfl := Except.ok.inj h
      exact .skip (by simpa using hskip)
    · obtain rfl := Except.ok.inj h
      rw [not_or] at hskip
      exact .start (by simpa using hskip.1) hskip.2
  | count ptr =>
    obtain ⟨_ | eol, heol, h⟩ := Run.bind_eq_ok.mp h
    · simp only at h
      split_ifs at h
      obtain rfl := Except.ok.inj h
      exact .noLine heol
    · obtain rfl := Except.ok.inj h
      exact .count heol
  | alloc =>
    obtain rfl := Except.ok.inj h
    exact .alloc
  | allocated =>
    obtain ⟨nb, _ | cells | _⟩ := sm
    · cases h
    · simp only [SymState.step] at h
      split_ifs at h with hrefuse
      · obtain rfl := Except.ok.inj h
        exact .refuse hrefuse
      · obtain rfl := Except.ok.inj h
        exact .parse hrefuse
    · cases h
  | parse ptr symIndex =>
    obtain ⟨nb, _ | cells | _⟩ := sm
    · cases h
    · exact parseStep_cases h
    · cases h
  | parsed symIndex =>
    simp only [SymState.step] at h
    split_ifs at h with hcount
    · obtain rfl := Except.ok.inj h
      exact .oops hcount
    · obtain rfl := Except.ok.inj h
      rw [not_not] at hcount
      rw [hcount]
      exact .done
  | failed =>
    obtain rfl := Except.ok.inj h
    exact .free
  | fail =>
    obtain rfl := Except.ok.inj h
    exact .fail
  | returned result =>
    obtain rfl := Except.ok.inj h
    exact .stay

/-- The states that `symbol_init` goes through. -/
def SymState.Reaches (env : SymEnv) : SymState → SymState → Prop :=
  Relation.ReflTransGen fun s t => s.step env = .ok t

theorem SymState.Reaches.head {env : SymEnv} {s t u : SymState} (hstep : s.step env = .ok t)
    (h : t.Reaches env u) : s.Reaches env u :=
  Relation.ReflTransGen.head hstep h

/-- What every step preserves holds in every state of the call. -/
theorem SymState.Reaches.invariant {env : SymEnv} {I : SymState → Prop}
    (hstep : ∀ s t, I s → s.step env = .ok t → I t) {s t : SymState} (h : s.Reaches env t)
    (hs : I s) : I t :=
  Run.Reaches.invariant hstep h hs

/-- A call of `symbol_init`: `sym_map` is static data. -/
def SymState.start (mem : List UInt8) : SymState := ⟨.start, mem, ⟨0, .null⟩⟩

/-! ## The search -/

/-- `sym_map.symbols[i]`. Reading a cell that is not filled in counts as reading outside the
array. -/
def SymMap.symbol (sm : SymMap) (i : ℕ) : Outcome Symbol :=
  match sm.symbols with
  | .live cells => do
    match ← readCell cells i with
    | some sym => return sym
    | none => .error .outOfBounds
  | .null => .error (.pageFault 0)
  | .freed => .error .outOfBounds

/-- The loop of `symbol_lookup` over the entries in `indices`. -/
def symbolLookupLoop (sm : SymMap) (name : List UInt8) : List ℕ → Outcome (Option Symbol)
  | [] => .ok none
  | i :: indices => do
    let curSym ← sm.symbol i
    if (← strcmp name curSym.name) = 0 then return some curSym
    else symbolLookupLoop sm name indices

/-- `symbol_lookup` for the string `name`: the symbol that is stored in `*sym`, if any. -/
def symbolLookup (sm : SymMap) (name : List UInt8) : Outcome (Option Symbol) := do
  if (← readCell name 0) = 0 then return none
  else if sm.nbSyms = 0 then return none
  else symbolLookupLoop sm name (List.range sm.nbSyms)

/-- The loop of `symbol_find`, with `last_sym`. -/
def symbolFindLoop (sm : SymMap) (addr : ℕ) : List ℕ → Option Symbol → Outcome (Option Symbol)
  | [], lastSym => .ok lastSym
  | i :: indices, lastSym => do
    let sym ← sm.symbol i
    if sym.addr > addr then return lastSym
    else symbolFindLoop sm addr indices (some sym)

/-- `symbol_find`. -/
def symbolFind (sm : SymMap) (addr : ℕ) : Outcome (Option Symbol) := do
  if addr = 0 then return none
  else if sm.nbSyms = 0 then return none
  else
    match ← symbolFindLoop sm addr (List.range sm.nbSyms) none with
    | none => return none
    | some lastSym =>
      if lastSym.len > 0 ∧ (addr < lastSym.addr ∨ addr ≥ Word32.add lastSym.addr lastSym.len) then
        return none
      else
        return some lastSym

end Ahos
