import Ahos.Kernel.Symbol.Panic
import Ahos.Kernel.Symbol.Text
import Ahos.Lib.SortedTable

/-!
# Finding a symbol

The symbol map is sorted by address. Each symbol reaches up to the next one, and `symbol_find`
returns the symbol that an address lies in. The lengths are the differences that the second pass
stores, so symbols at one address have the length zero, which for the last symbol means that its
length is unknown.
-/

namespace Ahos

/-! ## The file -/

/-- The symbols of the lines from `ptr` on, as `parse_line` reads them. -/
inductive Entries (env : SymEnv) (mem : List UInt8) : ℕ → List Symbol → Prop where
  | stop {ptr : ℕ} (heol : strchr mem ptr lf = .ok none) : Entries env mem ptr []
  | last {ptr eol : ℕ} {sym : Symbol} {mem' : List UInt8}
      (heol : strchr mem ptr lf = .ok (some eol)) (hend : ¬ eol + 1 < env.mapLen)
      (hline : parseLine (mem.set eol 0) ptr = .ok (some sym, mem')) : Entries env mem ptr [sym]
  | more {ptr eol : ℕ} {sym : Symbol} {syms : List Symbol} {mem' : List UInt8}
      (heol : strchr mem ptr lf = .ok (some eol)) (hnext : eol + 1 < env.mapLen)
      (hline : parseLine (mem.set eol 0) ptr = .ok (some sym, mem'))
      (hrest : Entries env mem (eol + 1) syms) : Entries env mem ptr (sym :: syms)

theorem Entries.addr_lt {env : SymEnv} {mem : List UInt8} {ptr : ℕ} {syms : List Symbol}
    (h : Entries env mem ptr syms) : ∀ sym ∈ syms, sym.addr < 4294967296 := by
  induction h with
  | stop => simp
  | last _ _ hline => simpa using (parseLine_accepted hline).2.1
  | more _ _ hline _ ih => exact List.forall_mem_cons.mpr ⟨(parseLine_accepted hline).2.1, ih⟩

/-! ## The table -/

section Table

variable {env : SymEnv} {mem : List UInt8} {s t : SymState} {syms : List Symbol}

/-- Another line gives the last symbol its length. -/
theorem setLengths_concat (syms : List Symbol) (last : Symbol) :
    ∃ before, before.length = syms.length ∧ setLengths (syms ++ [last]) = before ++ [last] ∧
      ∀ sym, setLengths (syms ++ [last, sym]) =
        before ++ [{ last with len := Word32.sub sym.addr last.addr }, sym] := by
  induction syms with
  | nil => exact ⟨[], rfl, rfl, fun _ => rfl⟩
  | cons first syms ih =>
    obtain ⟨before, hlen, hlast, hnext⟩ := ih
    cases syms with
    | nil =>
      obtain rfl := List.length_eq_zero_iff.mp hlen
      exact ⟨[{ first with len := Word32.sub last.addr first.addr }], rfl, rfl, fun _ => rfl⟩
    | cons next syms =>
      refine ⟨{ first with len := Word32.sub next.addr first.addr } :: before, ?_, ?_, ?_⟩
      · exact congrArg Nat.succ hlen
      · rw [List.cons_append, List.cons_append, setLengths, ← List.cons_append, hlast]
        rfl
      · intro sym
        rw [List.cons_append, List.cons_append, setLengths, ← List.cons_append, hnext]
        rfl

/-- A symbol with a neighbour reaches up to it. -/
theorem setLengths_getElem? {i : ℕ} {sym next : Symbol} (hsym : syms[i]? = some sym)
    (hnext : syms[i + 1]? = some next) :
    (setLengths syms)[i]? = some { sym with len := Word32.sub next.addr sym.addr } := by
  induction i generalizing syms with
  | zero =>
    obtain _ | ⟨a, _ | ⟨b, syms⟩⟩ := syms
    · cases hsym
    · cases hnext
    · obtain rfl := Option.some.inj hsym
      obtain rfl := Option.some.inj hnext
      rfl
  | succ i ih =>
    obtain _ | ⟨a, _ | ⟨b, syms⟩⟩ := syms
    · cases hsym
    · cases hsym
    · exact ih hsym hnext

theorem getLast?_setLengths (syms : List Symbol) : (setLengths syms).getLast? = syms.getLast? := by
  obtain rfl | ⟨syms, last, rfl⟩ := List.eq_nil_or_concat' syms
  · rfl
  · obtain ⟨before, -, hlast, -⟩ := setLengths_concat syms last
    rw [hlast, List.getLast?_concat, List.getLast?_concat]

/-- The first entries of the table hold `syms`, and there are at most as many entries as lines were
counted. -/
def SymMap.Begun (sm : SymMap) (syms : List Symbol) : Prop :=
  sm.nbSyms ≠ 0 ∧ ∃ k, syms.length + k ≤ sm.nbSyms ∧
    sm.symbols = .live ((setLengths syms).map some ++ List.replicate k none)

/-- **A line that is accepted adds its symbol.** -/
theorem SymMap.Begun.store {nb : ℕ} {cells cells' : List (Option Symbol)} {sym : Symbol}
    (h : SymMap.Begun ⟨nb, .live cells⟩ syms) (hentry : syms.length < cells.length)
    (hstore : storeSymbol cells syms.length sym = .ok cells') :
    SymMap.Begun ⟨nb, .live cells'⟩ (syms ++ [sym]) := by
  obtain ⟨hnb, k, hk, hcells⟩ := h
  obtain rfl := SymArray.live.inj hcells
  rw [List.length_append, List.length_map, length_setLengths, List.length_replicate] at hentry
  obtain ⟨k, rfl⟩ : ∃ k', k = k' + 1 := Nat.exists_eq_succ_of_ne_zero (by omega)
  refine ⟨hnb, k, ?_, ?_⟩
  · rw [List.length_append, List.length_singleton]
    simp only at hk ⊢
    omega
  obtain rfl | ⟨syms, last, rfl⟩ := List.eq_nil_or_concat' syms
  · rw [← Except.ok.inj hstore]
    rfl
  · obtain ⟨before, hlen, hlast, hnext⟩ := setLengths_concat syms last
    have hstored := storeSymbol_next (before.map some) (List.replicate k none) last sym none
    have hindex : (syms ++ [last]).length = (before.map some).length + 1 := by
      rw [List.length_append, List.length_map, hlen, List.length_singleton]
    rw [hindex, hlast, List.replicate_succ, List.map_append, List.append_assoc] at hstore
    rw [← Except.ok.inj (hstored.symm.trans hstore), List.append_assoc]
    simp [hnext]

/-- What holds of the table and of the lines that are left, in each state of `symbol_init`. -/
def SymState.Filling (env : SymEnv) (s : SymState) : Prop :=
  match s.point with
  | .allocated => ∀ cells, s.symMap.symbols = .live cells →
    ∃ k ≤ s.symMap.nbSyms, cells = List.replicate k none
  | .parse ptr symIndex => ∃ syms, syms.length = symIndex ∧ s.symMap.Begun syms ∧
    ∀ rest, Entries env s.mem ptr rest → Entries env s.mem 0 (syms ++ rest)
  | .parsed symIndex => ∃ syms, syms.length = symIndex ∧ s.symMap.Begun syms ∧
    Entries env s.mem 0 syms
  | .returned true => ∃ syms, syms ≠ [] ∧ Entries env s.mem 0 syms ∧
    s.symMap = ⟨syms.length, .live ((setLengths syms).map some)⟩
  | _ => True

theorem SymState.Filling.step (h : s.Filling env) (hs : s.step env = .ok t) : t.Filling env := by
  have hmem := SymState.step_mem hs
  cases SymState.step_cases hs with
  | @alloc _ sm =>
    intro cells hlive
    simp only [SymEnv.array] at hlive
    split_ifs at hlive
    exact ⟨symbolRoom sm.nbSyms, symbolRoom_le _, (SymArray.live.inj hlive).symm⟩
  | parse hne =>
    obtain ⟨k, hk, rfl⟩ := h _ rfl
    refine ⟨[], rfl, ⟨fun hnb => hne (.inr hnb), k, ?_, rfl⟩, fun rest hrest => hrest⟩
    rw [List.length_nil, Nat.zero_add]
    exact hk
  | lastLine heol =>
    obtain ⟨syms, hlen, hbegun, hentries⟩ := h
    have hstop := hentries [] (.stop heol)
    rw [List.append_nil] at hstop
    exact ⟨syms, hlen, hbegun, hstop⟩
  | accept heol hcut hentry hline hrestore hstore =>
    obtain ⟨syms, rfl, hbegun, hentries⟩ := h
    obtain ⟨-, rfl⟩ := writeCell_ok hcut
    have hbegun' := hbegun.store hentry hstore
    simp only at hmem hentries
    simp only [SymState.Filling]
    rw [hmem]
    split_ifs with hnext
    · refine ⟨_, List.length_append, hbegun', fun rest hrest => ?_⟩
      rw [List.append_assoc]
      exact hentries _ (.more heol hnext hline hrest)
    · exact ⟨_, List.length_append, hbegun', hentries _ (.last heol hnext hline)⟩
  | @done _ sm =>
    obtain ⟨nb, symbols⟩ := sm
    obtain ⟨syms, hlen, ⟨hnb, k, hk, hlive⟩, hentries⟩ := h
    simp only at hlen hnb hk hlive
    subst hlen
    -- as many entries were filled in as lines were counted, so none is left
    obtain rfl : k = 0 := by omega
    rw [List.replicate_zero, List.append_nil] at hlive
    refine ⟨syms, ?_, hentries, ?_⟩
    · rintro rfl
      exact hnb rfl
    · rw [hlive]
  | count =>
    simp only [SymState.Filling]
    split_ifs <;> trivial
  | stay => exact h
  | skip | start | noLine | refuse | reject | oops | free | fail => exact trivial

/-- **The table that `symbol_init` builds** holds the symbols of the file, each but the last one
with the length that reaches up to the next symbol. -/
theorem table_of_returned (hreach : (SymState.start mem).Reaches env s)
    (hreturned : s.point = .returned true) :
    ∃ syms, syms ≠ [] ∧ Entries env s.mem 0 syms ∧
      s.symMap = ⟨syms.length, .live ((setLengths syms).map some)⟩ := by
  have hfilling : s.Filling env := hreach.invariant (fun _ _ h hstep => h.step hstep) trivial
  rw [SymState.Filling, hreturned] at hfilling
  exact hfilling

end Table

/-! ## The search -/

section Search

variable {sm : SymMap} {table : List Symbol} {addr : ℕ}

/-- **The loop of `symbol_find` is a scan of the table.** -/
theorem symbolFindLoop_eq (before table : List Symbol) (lastSym : Option Symbol)
    (hlive : sm.symbols = .live ((before ++ table).map some)) :
    symbolFindLoop sm addr (List.range' before.length table.length) lastSym =
      .ok ((SortedTable.floor Symbol.addr addr table).or lastSym) := by
  induction table generalizing before lastSym with
  | nil => rfl
  | cons sym table ih =>
    rw [List.length_cons, List.range'_succ, symbolFindLoop, SymMap.symbol_at hlive, Run.ok_bind,
      SortedTable.floor]
    by_cases hle : sym.addr ≤ addr
    · have hrest := ih (before ++ [sym]) (some sym) (by simpa using hlive)
      rw [List.length_append, List.length_singleton] at hrest
      rw [if_neg (Nat.not_lt.mpr hle), hrest, List.takeWhile_cons_of_pos (by simpa using hle),
        List.getLast?_cons, SortedTable.floor]
      cases (table.takeWhile fun x => x.addr ≤ addr).getLast? <;> rfl
    · rw [if_pos (Nat.lt_of_not_le hle), List.takeWhile_cons_of_neg (by simpa using hle)]
      rfl

theorem symbolFind_eq (haddr : addr ≠ 0) (hne : table ≠ []) :
    symbolFind ⟨table.length, .live (table.map some)⟩ addr =
      .ok ((SortedTable.floor Symbol.addr addr table).filter fun sym =>
        ¬(sym.len > 0 ∧ (addr < sym.addr ∨ addr ≥ Word32.add sym.addr sym.len))) := by
  have hloop := @symbolFindLoop_eq ⟨table.length, .live (table.map some)⟩ addr [] table none rfl
  rw [Option.or_none, List.length_nil, ← List.range_eq_range'] at hloop
  rw [symbolFind, if_neg haddr, if_neg (by simpa using hne), hloop, Run.ok_bind]
  cases SortedTable.floor Symbol.addr addr table with
  | none => rfl
  | some sym =>
    simp only [Option.filter_some, decide_not, Bool.not_eq_true', decide_eq_false_iff_not]
    rw [ite_not]
    split_ifs <;> rfl

/-- `found` is the symbol that `addr` lies in: none below the first symbol, each symbol up to the
next one, and the last symbol up to its end if that is known. -/
structure Encloses (table : List Symbol) (addr : ℕ) (found : Option Symbol) : Prop where
  below : ∀ first ∈ table.head?, addr < first.addr → found = none
  between : ∀ i sym next, table[i]? = some sym → table[i + 1]? = some next →
    sym.addr ≤ addr → addr < next.addr →
      found = some sym ∧ ∀ j other, table[j]? = some other → other.addr ≤ addr → j ≤ i
  above : ∀ last ∈ table.getLast?, last.addr ≤ addr →
    found = if last.len = 0 ∨ addr - last.addr < last.len then some last else none

/-- In a sorted table whose lengths reach up to the next symbol, the search finds the symbol that
the address lies in. -/
theorem encloses_of_sorted (haddr : addr ≠ 0) (hne : table ≠ [])
    (hsorted : SortedTable.Sorted Symbol.addr table) (hlt : ∀ sym ∈ table, sym.addr < 4294967296)
    (hlens : ∀ i sym next, table[i]? = some sym → table[i + 1]? = some next →
      sym.len = Word32.sub next.addr sym.addr)
    (hend : ∀ last ∈ table.getLast?, last.addr + last.len < 4294967296) :
    ∃ found, symbolFind ⟨table.length, .live (table.map some)⟩ addr = .ok found ∧
      Encloses table addr found := by
  refine ⟨_, symbolFind_eq haddr hne, ?_, ?_, ?_⟩
  · intro first hfirst habove
    rw [SortedTable.floor_below hfirst (Nat.not_le.mpr habove)]
    rfl
  · intro i sym next hsym hnext hle hbelow
    refine ⟨?_, fun j other hother hle' =>
      hsorted.index_le hnext (Nat.not_le.mpr hbelow) hother hle'⟩
    have hnextLt := hlt next (List.mem_of_getElem? hnext)
    have hlen : sym.len = next.addr - sym.addr := by
      rw [hlens i sym next hsym hnext, Word32.sub_of_le (by omega) hnextLt]
    have hreach : Word32.add sym.addr sym.len = next.addr := by
      rw [hlen, Word32.add_of_lt (by omega)]
      omega
    rw [SortedTable.floor_between hsorted hsym hnext hle (Nat.not_le.mpr hbelow),
      Option.filter_some, if_pos]
    rw [decide_eq_true_iff, hreach]
    omega
  · intro last hlast hle
    have hreach : Word32.add last.addr last.len = last.addr + last.len :=
      Word32.add_of_lt (hend last hlast)
    rw [SortedTable.floor_above hsorted hlast hle, Option.filter_some, hreach]
    by_cases hin : last.len = 0 ∨ addr - last.addr < last.len
    · rw [if_pos hin, if_pos]
      rw [decide_eq_true_iff]
      omega
    · rw [if_neg hin, if_neg]
      rw [decide_eq_true_iff]
      omega

end Search

/-! ## The result -/

section Result

variable {env : SymEnv} {mem : List UInt8} {s : SymState}

theorem setLengths_len {syms : List Symbol} {i : ℕ} {sym next : Symbol}
    (hsym : (setLengths syms)[i]? = some sym) (hnext : (setLengths syms)[i + 1]? = some next) :
    sym.len = Word32.sub next.addr sym.addr := by
  have haddr : ∀ (j : ℕ) (stored : Symbol), (setLengths syms)[j]? = some stored →
      ∃ entry : Symbol, syms[j]? = some entry ∧ entry.addr = stored.addr := by
    intro j stored hstored
    have hmap := congrArg (·[j]?) (map_setLengths (g := Symbol.addr) (fun _ _ => rfl) syms)
    simp only [List.getElem?_map, hstored, Option.map_some] at hmap
    exact Option.map_eq_some_iff.mp hmap.symm
  obtain ⟨entry, hentry, -⟩ := haddr i sym hsym
  obtain ⟨entry', hentry', haddr'⟩ := haddr (i + 1) next hnext
  rw [setLengths_getElem? hentry hentry', Option.some_inj] at hsym
  rw [← hsym, ← haddr']

/-- **`symbol_find` returns the symbol that encloses the address.** Whenever `symbol_init` has
returned true, the table holds the symbols of the file. If their addresses are in ascending order
and the last symbol ends below 2^32, then for every address but `NULL` nothing is found below the
first symbol, symbol `i` is found from its address up to the address of symbol `i + 1`, and the last
symbol is found from its address up to its end, or without an end if its length is zero. -/
theorem symbol_find_encloses (hreach : (SymState.start mem).Reaches env s)
    (hreturned : s.point = .returned true) :
    ∃ syms, syms ≠ [] ∧ Entries env mem 0 syms ∧
      s.symMap = ⟨syms.length, .live ((setLengths syms).map some)⟩ ∧
      (SortedTable.Sorted Symbol.addr syms →
        (∀ last ∈ syms.getLast?, last.addr + last.len < 4294967296) →
        ∀ addr ≠ 0, ∃ found, symbolFind s.symMap addr = .ok found ∧
          Encloses (setLengths syms) addr found) := by
  obtain ⟨syms, hne, hentries, hmap⟩ := table_of_returned hreach hreturned
  have hmem : s.mem = mem := hreach.mem_eq
  rw [hmem] at hentries
  refine ⟨syms, hne, hentries, hmap, fun hsorted hend addr haddr => ?_⟩
  have htable : setLengths syms ≠ [] := by
    rw [← List.length_pos_iff, length_setLengths]
    exact List.length_pos_of_ne_nil hne
  rw [hmap, ← length_setLengths syms]
  apply encloses_of_sorted haddr htable
  · rw [SortedTable.Sorted, ← List.pairwise_map, map_setLengths fun _ _ => rfl,
      List.pairwise_map]
    exact hsorted
  · intro sym hsym
    have hmem : sym.addr ∈ (setLengths syms).map Symbol.addr := List.mem_map_of_mem hsym
    rw [map_setLengths fun _ _ => rfl] at hmem
    obtain ⟨entry, hentry, haddr⟩ := List.mem_map.mp hmem
    exact haddr ▸ hentries.addr_lt entry hentry
  · exact fun i sym next hsym hnext => setLengths_len hsym hnext
  · rw [getLast?_setLengths]
    exact hend

/-- The record `e b c`, at the address of the record `a b c`. -/
def aliasRecord : SymRecord :=
  { shortRecord with
    name := [0x65]
    name_ne := by decide
    name_le := by decide
    name_plain := by simp [Plain, space, lf] }

/-- Three symbols, the first two of which have the same address: the second one is found from there
up to the third one, the third one up to its end, and nothing is found below and above. -/
theorem symbol_find_encloses_alias :
    ∃ s, (SymState.start (symbolText [shortRecord, aliasRecord, nextRecord] ++ [0x00])).Reaches
        ⟨true, 23, true⟩ s ∧ s.point = .returned true ∧
      symbolFind s.symMap 0x5 = .ok none ∧
      symbolFind s.symMap 0x10 = .ok (some ⟨0xc, 0x14, 0x65 :: List.replicate 95 0⟩) ∧
      symbolFind s.symMap 0x27 = .ok (some ⟨0x20, 8, 0x64 :: List.replicate 95 0⟩) ∧
      symbolFind s.symMap 0x28 = .ok none := by
  have hreach := reaches_returned [shortRecord, aliasRecord, nextRecord] (by decide) [0x00]
    (by decide)
  obtain ⟨syms, -, -, hmap, hfind⟩ := symbol_find_encloses hreach rfl
  have htable : setLengths syms = symbolTable [shortRecord, aliasRecord, nextRecord] :=
    (List.map_injective_iff.mpr (Option.some_injective _)
      (SymArray.live.inj (SymMap.mk.inj hmap).2)).symm
  have hsorted : SortedTable.Sorted Symbol.addr syms := by
    rw [SortedTable.Sorted, ← List.pairwise_map, ← map_setLengths (g := Symbol.addr) fun _ _ => rfl,
      htable]
    decide
  have hend : ∀ last ∈ syms.getLast?, last.addr + last.len < 4294967296 := by
    rw [← getLast?_setLengths, htable]
    decide
  have hencloses := hfind hsorted hend
  rw [htable] at hencloses
  refine ⟨_, hreach, rfl, ?_, ?_, ?_, ?_⟩
  · obtain ⟨found, hfound, h⟩ := hencloses 0x5 (by decide)
    rw [hfound, h.below ⟨0xc, 0, 0x61 :: List.replicate 95 0⟩ rfl (by decide)]
  · obtain ⟨found, hfound, h⟩ := hencloses 0x10 (by decide)
    rw [hfound, (h.between 1 ⟨0xc, 0x14, 0x65 :: List.replicate 95 0⟩
      ⟨0x20, 8, 0x64 :: List.replicate 95 0⟩ rfl rfl (by decide) (by decide)).1]
  · obtain ⟨found, hfound, h⟩ := hencloses 0x27 (by decide)
    rw [hfound, h.above ⟨0x20, 8, 0x64 :: List.replicate 95 0⟩ rfl (by decide), if_pos (by decide)]
  · obtain ⟨found, hfound, h⟩ := hencloses 0x28 (by decide)
    rw [hfound, h.above ⟨0x20, 8, 0x64 :: List.replicate 95 0⟩ rfl (by decide), if_neg (by decide)]

end Result

end Ahos
