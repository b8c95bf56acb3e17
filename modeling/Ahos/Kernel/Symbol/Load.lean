import Ahos.Kernel.Symbol.Defs

/-!
# Loading a symbol map

A well-formed symbol map is a list of records, printed one a line. `symbol_init` builds the table of
these records, as long as its size is at most `2 ^ 31` bytes: neither the product that is given to
`kmalloc` nor what `kmalloc` makes of it is checked.
-/

namespace Ahos

/-! ## Records -/

/-- Characters that do not separate or end anything. -/
def Plain (w : List UInt8) : Prop := ∀ c ∈ w, c ≠ space ∧ c ≠ lf ∧ c ≠ 0

/-- Hexadecimal digits. -/
def AllHex (w : List UInt8) : Prop := ∀ c ∈ w, (hexDigit c).isSome

instance : DecidablePred AllHex := fun w => inferInstanceAs (Decidable (∀ c ∈ w, _))

/-- A 32-bit number, printed with one to eight hexadecimal digits. -/
structure IsHex (digits : List UInt8) : Prop where
  ne_nil : digits ≠ []
  length_le : digits.length ≤ 8
  digit : ∀ c ∈ digits, (hexDigit c).isSome

/-- A symbol as it is printed in a symbol map. -/
structure SymRecord where
  name : List UInt8
  type : List UInt8
  /-- The digits of the address. -/
  addr : List UInt8
  /-- The digits of the length, which is optional. -/
  len : Option (List UInt8)
  name_ne : name ≠ []
  name_le : name.length ≤ 95
  name_plain : Plain name
  type_ne : type ≠ []
  type_plain : Plain type
  addr_hex : IsHex addr
  len_hex : ∀ digits ∈ len, IsHex digits

/-- The line of a record, without its line feed. -/
def SymRecord.body (r : SymRecord) : List UInt8 :=
  r.name ++ space :: (r.type ++ space :: (r.addr ++ space :: r.len.getD []))

/-- The line of a record. -/
def SymRecord.line (r : SymRecord) : List UInt8 := r.body ++ [lf]

/-- The symbol map. -/
def symbolText (records : List SymRecord) : List UInt8 := records.flatMap SymRecord.line

/-- The symbol of a record, with the length that is printed, or zero. -/
def SymRecord.symbol (r : SymRecord) : Symbol where
  addr := hexValue r.addr
  len := (r.len.map hexValue).getD 0
  name := r.name ++ List.replicate (symbolMaxLen - r.name.length) 0

/-- Each symbol but the last one reaches up to the next symbol. -/
def setLengths : List Symbol → List Symbol
  | [] => []
  | [sym] => [sym]
  | sym :: next :: syms =>
    { sym with len := Word32.sub next.addr sym.addr } :: setLengths (next :: syms)

/-- The table of the records. -/
def symbolTable (records : List SymRecord) : List Symbol :=
  setLengths (records.map SymRecord.symbol)

/-! ## Access to the text -/

section Access

variable {pre post w : List UInt8} {x y c : UInt8} {p : ℕ}

theorem readCell_at (hp : p = pre.length) : readCell (pre ++ x :: post) p = .ok x := by
  subst hp
  rw [readCell_eq_ok]
  simp

theorem writeCell_at (hp : p = pre.length) :
    writeCell (pre ++ x :: post) p y = .ok (pre ++ y :: post) := by
  subst hp
  rw [writeCell, if_pos (by simp)]
  simp

theorem strchr_found (hp : p = pre.length) (hc : c ≠ 0) (hnul : 0 ∉ w) (hw : c ∉ w) :
    strchr (pre ++ (w ++ c :: post)) p c = .ok (some (p + w.length)) := by
  subst hp
  rw [strchr, List.drop_left, strchrFrom_found hc hnul hw]

theorem strlen_at (hp : p = pre.length) (hnul : 0 ∉ w) :
    strlen (pre ++ (w ++ 0 :: post)) p = .ok w.length := by
  subst hp
  rw [strlen, List.drop_left, strlenFrom_eq hnul]

theorem strncpy_at (hp : p = pre.length) (hnul : 0 ∉ w) {n : ℕ} (hn : w.length ≤ n) :
    strncpy (pre ++ (w ++ 0 :: post)) p n = .ok (w ++ List.replicate (n - w.length) 0) := by
  subst hp
  rw [strncpy, List.drop_left, strncpyFrom_eq hnul hn]

theorem strchr_missing (hp : p = pre.length) (hnul : 0 ∉ w) (hw : c ∉ w) :
    strchr (pre ++ (w ++ 0 :: post)) p c = .ok none := by
  subst hp
  rw [strchr, List.drop_left, strchrFrom_missing hnul hw]

theorem atoh_at (hp : p = pre.length) (hnul : 0 ∉ w) (hlen : w.length ≤ 8) :
    atoh (pre ++ (w ++ 0 :: post)) p =
      if AllHex w then .ok (hexValue w) else panic "abort" := by
  subst hp
  rw [atoh, List.drop_left]
  split_ifs with hw
  · exact atohFrom_digits hw hlen
  · exact atohFrom_abort hnul hw

theorem Plain.notMem (h : Plain w) : 0 ∉ w ∧ space ∉ w ∧ lf ∉ w :=
  ⟨fun hc => (h _ hc).2.2 rfl, fun hc => (h _ hc).1 rfl, fun hc => (h _ hc).2.1 rfl⟩

theorem IsHex.plain (h : IsHex w) : Plain w := by
  intro c hc
  have hdigit := h.digit c hc
  refine ⟨?_, ?_, ?_⟩
  all_goals
    rintro rfl
    revert hdigit
    decide

end Access

/-! ## A line -/

section Line

variable {pre post : List UInt8}

/-- The length is the rest of the line, whatever it is. -/
theorem parseLen_text (addr : ℕ) (name : List UInt8) {rest : List UInt8} (hnul : 0 ∉ rest) {p : ℕ}
    (hp : p = pre.length) :
    parseLen (pre ++ (rest ++ 0 :: post)) p addr name =
      if 8 < rest.length then .ok (none, pre ++ (rest ++ 0 :: post))
      else if AllHex rest then
        .ok (some ⟨addr, hexValue rest, name⟩, pre ++ (rest ++ 0 :: post))
      else panic "abort" := by
  unfold parseLen
  cases rest with
  | nil =>
    rw [List.nil_append, readCell_at hp, Run.ok_bind, if_pos rfl, if_neg (by simp),
      if_pos (by simp [AllHex])]
    rfl
  | cons c rest =>
    have hc : c ≠ 0 := fun hzero => hnul (by rw [hzero]; exact List.mem_cons_self)
    have hread : readCell (pre ++ (c :: rest ++ 0 :: post)) p = .ok c := readCell_at hp
    rw [hread, Run.ok_bind, if_neg hc, strlen_at hp hnul, Run.ok_bind]
    by_cases hlen : 8 < (c :: rest).length
    · rw [if_pos hlen, if_pos hlen]
      rfl
    · rw [if_neg hlen, if_neg hlen, atoh_at hp hnul (Nat.le_of_not_lt hlen)]
      split_ifs <;> rfl

/-- The address reaches up to the next space, whatever it is. -/
theorem parseAddr_text (name : List UInt8) {addr rest : List UInt8} (hnul : 0 ∉ addr)
    (hspace : space ∉ addr) (hrest : 0 ∉ rest) {p : ℕ} (hp : p = pre.length) :
    parseAddr (pre ++ (addr ++ space :: (rest ++ 0 :: post))) p name =
      if 8 < addr.length then .ok (none, pre ++ (addr ++ space :: (rest ++ 0 :: post)))
      else if AllHex addr then
        if 8 < rest.length then .ok (none, pre ++ (addr ++ space :: (rest ++ 0 :: post)))
        else if AllHex rest then
          .ok (some ⟨hexValue addr, hexValue rest, name⟩,
            pre ++ (addr ++ space :: (rest ++ 0 :: post)))
        else panic "abort"
      else panic "abort" := by
  -- the separator behind the address is overwritten and restored
  have hwrite : ∀ x y : UInt8, writeCell (pre ++ (addr ++ x :: (rest ++ 0 :: post)))
      (p + addr.length) y = .ok (pre ++ (addr ++ y :: (rest ++ 0 :: post))) := by
    intro x y
    rw [← List.append_assoc, writeCell_at (by simp [hp]), List.append_assoc]
  have hlen := @parseLen_text (pre ++ (addr ++ [space])) post (hexValue addr) name rest hrest
    (p + addr.length + 1) (by simp [hp]; omega)
  simp only [List.append_assoc, List.singleton_append] at hlen
  rw [parseAddr, strchr_found hp (by decide) hnul hspace, Run.ok_bind]
  simp only [hwrite, Run.ok_bind, strlen_at hp hnul]
  by_cases hlong : 8 < addr.length
  · rw [if_pos hlong, if_pos hlong]
    rfl
  · rw [if_neg hlong, if_neg hlong, atoh_at hp hnul (Nat.le_of_not_lt hlong)]
    by_cases hhex : AllHex addr
    · rw [if_pos hhex, if_pos hhex, Run.ok_bind]
      exact hlen
    · rw [if_neg hhex, if_neg hhex]
      rfl

/-- The name reaches up to the first space, and the type to the next one, whatever they are. The
entry is written when the name fits in it. -/
theorem parseLineInto_text (entry : Outcome Unit) {name tail : List UInt8} (hnul : 0 ∉ name)
    (hspace : space ∉ name) {p : ℕ} (hp : p = pre.length) :
    parseLineInto entry (pre ++ (name ++ space :: tail)) p =
      if name = [] ∨ symbolMaxLen ≤ name.length then .ok (none, pre ++ (name ++ space :: tail))
      else entry >>= fun _ =>
        strchr (pre ++ (name ++ space :: tail)) (p + name.length + 1) space >>= fun sep =>
          sep.elim (.ok (none, pre ++ (name ++ space :: tail))) fun sep =>
            parseAddr (pre ++ (name ++ space :: tail)) (sep + 1)
              (name ++ List.replicate (symbolMaxLen - name.length) 0) := by
  obtain ⟨c, hread, hc⟩ : ∃ c, readCell (pre ++ (name ++ space :: tail)) p = .ok c ∧ c ≠ 0 := by
    cases name with
    | nil => exact ⟨space, readCell_at hp, by decide⟩
    | cons c name =>
      exact ⟨c, readCell_at hp, fun hzero => hnul (by rw [hzero]; exact List.mem_cons_self)⟩
  -- the separator behind the name is overwritten and restored
  have hwrite : ∀ x y : UInt8, writeCell (pre ++ (name ++ x :: tail)) (p + name.length) y =
      .ok (pre ++ (name ++ y :: tail)) := by
    intro x y
    rw [← List.append_assoc, writeCell_at (by simp [hp]), List.append_assoc]
  rw [parseLineInto, hread, Run.ok_bind, if_neg hc, strchr_found hp (by decide) hnul hspace,
    Run.ok_bind]
  simp only [hwrite, Run.ok_bind, strlen_at hp hnul, ge_iff_le]
  by_cases hempty : name = []
  · rw [if_pos (by simp [hempty]), if_pos (.inl hempty)]
    rfl
  · rw [if_neg (by simpa using hempty)]
    by_cases hlong : symbolMaxLen ≤ name.length
    · rw [if_pos hlong, if_pos (.inr hlong)]
      rfl
    · have hcopy : name ++ List.replicate (symbolMaxLen - 1 - name.length) 0 ++ [0] =
          name ++ List.replicate (symbolMaxLen - name.length) 0 := by
        have hsub : symbolMaxLen - name.length = symbolMaxLen - 1 - name.length + 1 := by
          simp only [symbolMaxLen] at hlong ⊢
          omega
        rw [hsub, List.replicate_succ', List.append_assoc]
      rw [if_neg hlong, if_neg (by rw [not_or]; exact ⟨hempty, hlong⟩),
        strncpy_at hp hnul (by omega), Run.ok_bind, hcopy]
      cases entry with
      | error e => rfl
      | ok written =>
        simp only [Run.ok_bind]
        cases strchr (pre ++ (name ++ space :: tail)) (p + name.length + 1) space with
        | error e => rfl
        | ok sep => cases sep <;> rfl

/-- The name reaches up to the first space, and the type to the next one, whatever they are. -/
theorem parseLine_text {name tail : List UInt8} (hnul : 0 ∉ name) (hspace : space ∉ name) {p : ℕ}
    (hp : p = pre.length) :
    parseLine (pre ++ (name ++ space :: tail)) p =
      if name = [] ∨ symbolMaxLen ≤ name.length then .ok (none, pre ++ (name ++ space :: tail))
      else strchr (pre ++ (name ++ space :: tail)) (p + name.length + 1) space >>= fun sep =>
        sep.elim (.ok (none, pre ++ (name ++ space :: tail))) fun sep =>
          parseAddr (pre ++ (name ++ space :: tail)) (sep + 1)
            (name ++ List.replicate (symbolMaxLen - name.length) 0) :=
  parseLineInto_text (.ok ()) hnul hspace hp

/-- The line of a record is accepted. -/
theorem parseLine_eq (r : SymRecord) {p : ℕ} (hp : p = pre.length) :
    parseLine (pre ++ (r.body ++ 0 :: post)) p =
      .ok (some r.symbol, pre ++ (r.body ++ 0 :: post)) := by
  obtain ⟨hnul, hspace, -⟩ := r.name_plain.notMem
  obtain ⟨htype, htspace, -⟩ := r.type_plain.notMem
  obtain ⟨haddr, haspace, -⟩ := r.addr_hex.plain.notMem
  have hname := r.name_le
  obtain ⟨hlenHex, hlenLe, hlenNul⟩ : AllHex (r.len.getD []) ∧ (r.len.getD []).length ≤ 8 ∧
      0 ∉ r.len.getD [] := by
    cases hlen : r.len with
    | none => simp [AllHex]
    | some digits =>
      have hhex := r.len_hex digits hlen
      exact ⟨hhex.digit, hhex.length_le, hhex.plain.notMem.1⟩
  have hvalue : hexValue (r.len.getD []) = (r.len.map hexValue).getD 0 := by
    cases r.len <;> rfl
  obtain ⟨tail, htail⟩ : ∃ tail, tail =
    r.type ++ space :: (r.addr ++ space :: (r.len.getD [] ++ 0 :: post)) := ⟨_, rfl⟩
  have hbody : r.body ++ 0 :: post = r.name ++ space :: tail := by
    simp [SymRecord.body, htail]
  have hchr := @strchr_found (pre ++ (r.name ++ [space]))
    (r.addr ++ space :: (r.len.getD [] ++ 0 :: post)) r.type space (p + r.name.length + 1)
    (by simp [hp]; omega) (by decide) htype htspace
  have hrest := @parseAddr_text (pre ++ (r.name ++ space :: (r.type ++ [space]))) post
    r.symbol.name r.addr (r.len.getD []) haddr haspace hlenNul
    (p + r.name.length + 1 + r.type.length + 1) (by simp [hp]; omega)
  simp only [List.append_assoc, List.cons_append, List.nil_append] at hchr hrest
  rw [← htail] at hchr hrest
  have haddrHex : AllHex r.addr := r.addr_hex.digit
  rw [if_neg (Nat.not_lt.mpr r.addr_hex.length_le), if_pos haddrHex,
    if_neg (Nat.not_lt.mpr hlenLe), if_pos hlenHex, hvalue] at hrest
  rw [hbody, parseLine_text hnul hspace hp, if_neg, hchr, Run.ok_bind]
  · exact hrest
  · rw [not_or, Nat.not_le]
    exact ⟨r.name_ne, Nat.lt_succ_of_le hname⟩

end Line

/-! ## The array -/

section Room

variable {nb : ℕ}

theorem symbolRoom_of_le (h : symbolSize * nb ≤ 2 ^ 31) : symbolRoom nb = nb := by
  have hmul : Word32.mul nb symbolSize = nb * symbolSize :=
    Word32.mul_of_lt (by rw [Nat.mul_comm]; omega)
  rw [symbolRoom, hmul, grantedSize, if_pos (by rwa [Nat.mul_comm]),
    Nat.mul_div_cancel _ (by decide)]

/-- **When the array has room for all of the symbols.** -/
theorem le_symbolRoom_iff : nb ≤ symbolRoom nb ↔ symbolSize * nb ≤ 2 ^ 31 := by
  constructor
  · intro hle
    have hgranted : grantedSize (Word32.mul nb symbolSize) ≤ 2 ^ 31 := by
      unfold grantedSize
      split_ifs with hsize
      · exact hsize
      · exact Nat.zero_le _
    have hroom := Nat.mul_div_le (grantedSize (Word32.mul nb symbolSize)) symbolSize
    have hmono := Nat.mul_le_mul_left symbolSize hle
    simp only [symbolRoom] at hmono
    omega
  · intro hsize
    rw [symbolRoom_of_le hsize]

/-- The array never has room for more. -/
theorem symbolRoom_le (nb : ℕ) : symbolRoom nb ≤ nb := by
  have hgranted : grantedSize (Word32.mul nb symbolSize) ≤ Word32.mul nb symbolSize := by
    unfold grantedSize
    split_ifs
    · exact le_rfl
    · exact Nat.zero_le _
  have hmul : Word32.mul nb symbolSize ≤ nb * symbolSize := Nat.mod_le _ _
  exact Nat.div_le_of_le_mul (by rw [Nat.mul_comm]; omega)

/-- **The array in the heap.** The area behind the pointer that `kmalloc` returns holds the entries
that the array has room for. A request beyond `2 ^ 31` bytes has an area without a byte. -/
theorem array_area {bad : Halt → Prop}
    {frames : Machine → List (ℕ × ℕ) → List (ℕ × ℕ) → Prop} {h h' : Heap} {out : List (ℕ × ℕ)}
    {p : ℕ} (hk : FrameKeeper bad frames) (hinv : HeapInv frames h out [])
    (halloc : kmalloc h (Word32.mul nb symbolSize) = .ok (p, h')) (hp : p ≠ 0) :
    ∃ size, ((p, size) ∈ h'.usedAreas ∨ (p, size) ∈ h'.bigAreas) ∧
      symbolSize * symbolRoom nb ≤ size ∧ (2 ^ 31 < Word32.mul nb symbolSize → size = 0) := by
  obtain ⟨size, hmem, hle, hzero⟩ := kmalloc_area hk hinv (Word32.wrap_lt _) halloc hp
  exact ⟨size, hmem, (Nat.mul_div_le _ _).trans hle, fun hlt =>
    hzero (if_neg (Nat.not_le.mpr hlt))⟩

/-- The array that has room for them. -/
theorem SymEnv.array_of_le {env : SymEnv} (hkmallocs : env.kmallocs = true) (hpos : 0 < nb)
    (hsize : symbolSize * nb ≤ 2 ^ 31) : env.array nb = .live (List.replicate nb none) := by
  have hmul : Word32.mul nb symbolSize = nb * symbolSize :=
    Word32.mul_of_lt (by rw [Nat.mul_comm]; omega)
  rw [SymEnv.array, symbolRoom_of_le hsize, hmul, if_pos]
  refine ⟨hkmallocs, ?_⟩
  simp only [symbolSize]
  omega

end Room

/-! ## Counting -/

section Loops

variable {env : SymEnv} {pre rest : List UInt8}

theorem SymRecord.body_notMem (r : SymRecord) : 0 ∉ r.body ∧ lf ∉ r.body := by
  have hlen : Plain (r.len.getD []) := by
    cases hlen : r.len with
    | none => exact fun c hc => by cases hc
    | some digits => exact (r.len_hex digits hlen).plain
  obtain ⟨hname, -, hnameLf⟩ := r.name_plain.notMem
  obtain ⟨htype, -, htypeLf⟩ := r.type_plain.notMem
  obtain ⟨haddr, -, haddrLf⟩ := r.addr_hex.plain.notMem
  obtain ⟨hnul, -, hlf⟩ := hlen.notMem
  have hspace : (0 : UInt8) ≠ space ∧ lf ≠ space := by decide
  constructor
  · simp [SymRecord.body, hname, htype, haddr, hnul, hspace.1]
  · simp [SymRecord.body, hnameLf, htypeLf, haddrLf, hlf, hspace.2]

/-- The end of the next line. -/
theorem strchr_line (r : SymRecord) :
    strchr (pre ++ (r.line ++ rest)) pre.length lf = .ok (some (pre.length + r.body.length)) := by
  rw [SymRecord.line, List.append_assoc]
  exact strchr_found rfl (by decide) r.body_notMem.1 r.body_notMem.2

theorem symbolText_cons (r : SymRecord) (records : List SymRecord) :
    symbolText (r :: records) = r.line ++ symbolText records := rfl

theorem SymRecord.length_line (r : SymRecord) : r.line.length = r.body.length + 1 := by
  simp [SymRecord.line]

/-- Where a loop goes on behind a line: at the next line, if there is one. -/
theorem next_line_lt {r : SymRecord} {records : List SymRecord}
    (hlen : env.mapLen = pre.length + (symbolText (r :: records)).length) :
    pre.length + r.body.length + 1 < env.mapLen ↔ records ≠ [] := by
  rw [symbolText_cons, List.length_append, r.length_line] at hlen
  cases records with
  | nil =>
    refine iff_of_false ?_ (not_not.mpr rfl)
    simp only [symbolText, List.flatMap_nil, List.length_nil] at hlen
    omega
  | cons r' records =>
    rw [symbolText_cons, List.length_append, r'.length_line] at hlen
    exact iff_of_true (by omega) (List.cons_ne_nil _ _)

/-- **The first pass counts the lines.** -/
theorem reaches_alloc (records : List SymRecord) (hne : records ≠ []) (pre : List UInt8) (nb : ℕ)
    (symbols : SymArray) (hlen : env.mapLen = pre.length + (symbolText records).length) :
    SymState.Reaches env ⟨.count pre.length, pre ++ (symbolText records ++ rest), ⟨nb, symbols⟩⟩
      ⟨.alloc, pre ++ (symbolText records ++ rest),
        ⟨Word32.wrap (nb + records.length), symbols⟩⟩ := by
  induction records generalizing pre nb with
  | nil => exact absurd rfl hne
  | cons r records ih =>
    have hnext := next_line_lt hlen
    have heol := @strchr_line pre (symbolText records ++ rest) r
    rw [symbolText_cons, List.append_assoc]
    have hstep : ∀ point, (if pre.length + r.body.length + 1 < env.mapLen then
          SymPoint.count (pre.length + r.body.length + 1) else .alloc) = point →
        SymState.step env ⟨.count pre.length, pre ++ (r.line ++ (symbolText records ++ rest)),
          ⟨nb, symbols⟩⟩ = .ok ⟨point, pre ++ (r.line ++ (symbolText records ++ rest)),
          ⟨Word32.wrap (nb + 1), symbols⟩⟩ := by
      rintro point rfl
      simp only [SymState.step, heol, Run.ok_bind]
      rfl
    by_cases hmore : records = []
    · subst hmore
      refine .head (hstep .alloc (if_neg fun h => hnext.mp h rfl)) .refl
    · have hpre : (pre ++ r.line).length = pre.length + r.body.length + 1 := by
        rw [List.length_append, r.length_line]
        omega
      refine .head (hstep _ (if_pos (hnext.mpr hmore))) ?_
      have hrest := ih hmore (pre ++ r.line) (Word32.wrap (nb + 1)) (by
        rw [hlen, symbolText_cons]
        simp
        omega)
      rw [hpre, List.append_assoc] at hrest
      have hwrap : Word32.wrap (Word32.wrap (nb + 1) + records.length) =
          Word32.wrap (nb + (r :: records).length) := by
        simp only [Word32.wrap, List.length_cons]
        omega
      rwa [hwrap] at hrest

/-! ## Parsing -/

/-- **A line of the second pass stores the symbol of its record**, and leaves the text as it was. -/
theorem parse_line_step (r : SymRecord) (records : List SymRecord) (nb i : ℕ)
    {cells cells' : List (Option Symbol)}
    (hlen : env.mapLen = pre.length + (symbolText (r :: records)).length)
    (hi : i < cells.length) (hstore : storeSymbol cells i r.symbol = .ok cells') :
    SymState.step env ⟨.parse pre.length i, pre ++ (symbolText (r :: records) ++ rest),
      ⟨nb, .live cells⟩⟩ =
      .ok ⟨if records = [] then .parsed (i + 1) else .parse (pre ++ r.line).length (i + 1),
        pre ++ (symbolText (r :: records) ++ rest), ⟨nb, .live cells'⟩⟩ := by
  have hnext := next_line_lt hlen
  have hpre : pre.length + r.body.length + 1 = (pre ++ r.line).length := by
    rw [List.length_append, r.length_line]
    omega
  have htext : pre ++ (symbolText (r :: records) ++ rest) =
      pre ++ (r.body ++ lf :: (symbolText records ++ rest)) := by
    rw [symbolText_cons, SymRecord.line]
    simp
  have hwrite : ∀ x y : UInt8, writeCell (pre ++ (r.body ++ x :: (symbolText records ++ rest)))
      (pre.length + r.body.length) y =
      .ok (pre ++ (r.body ++ y :: (symbolText records ++ rest))) := by
    intro x y
    rw [← List.append_assoc, writeCell_at (by simp), List.append_assoc]
  have hline : parseLineInto (.ok ()) (pre ++ (r.body ++ 0 :: (symbolText records ++ rest)))
      pre.length = _ := parseLine_eq r rfl
  rw [htext]
  simp only [SymState.step, parseStep, strchr_found rfl (show lf ≠ 0 by decide) r.body_notMem.1
    r.body_notMem.2, hwrite, accessCell, if_pos hi, hline, hstore, Run.ok_bind]
  by_cases hmore : records = []
  · rw [if_neg fun h => hnext.mp h hmore, if_pos hmore]
    rfl
  · rw [if_pos (hnext.mpr hmore), if_neg hmore, hpre]
    rfl

theorem storeSymbol_first (x : Option Symbol) (cells : List (Option Symbol)) (sym : Symbol) :
    storeSymbol (x :: cells) 0 sym = .ok (some sym :: cells) := rfl

theorem storeSymbol_next (done cells : List (Option Symbol)) (last sym : Symbol)
    (x : Option Symbol) :
    storeSymbol (done ++ some last :: x :: cells) (done.length + 1) sym =
      .ok (done ++ some { last with len := Word32.sub sym.addr last.addr } :: some sym ::
        cells) := by
  have hwrite : writeCell (done ++ some last :: x :: cells) (done.length + 1) (some sym) =
      .ok (done ++ some last :: some sym :: cells) := by
    rw [writeCell, if_pos (by simp), List.set_append_right _ _ (by omega)]
    simp
  have hread : readCell (done ++ some last :: some sym :: cells) done.length = .ok (some last) := by
    rw [readCell_eq_ok]
    simp
  rw [storeSymbol, hwrite, Run.ok_bind, if_neg (Nat.succ_ne_zero _), Nat.add_sub_cancel, hread,
    Run.ok_bind]
  simp only [writeCell]
  rw [if_pos (by simp)]
  simp

/-- **The second pass** from the second line on: `last` is the symbol of the line before. -/
theorem reaches_parsed (records : List SymRecord) (hne : records ≠ []) (pre : List UInt8) (nb : ℕ)
    (done : List (Option Symbol)) (last : Symbol)
    (hlen : env.mapLen = pre.length + (symbolText records).length) :
    SymState.Reaches env
      ⟨.parse pre.length (done.length + 1), pre ++ (symbolText records ++ rest),
        ⟨nb, .live (done ++ some last :: List.replicate records.length none)⟩⟩
      ⟨.parsed (done.length + 1 + records.length), pre ++ (symbolText records ++ rest),
        ⟨nb, .live (done ++ (setLengths (last :: records.map SymRecord.symbol)).map some)⟩⟩ := by
  induction records generalizing pre done last with
  | nil => exact absurd rfl hne
  | cons r records ih =>
    have hstep := @parse_line_step env pre rest r records nb (done.length + 1)
      (done ++ some last :: none :: List.replicate records.length none) _ hlen (by simp)
      (storeSymbol_next done _ last r.symbol none)
    by_cases hmore : records = []
    · subst hmore
      exact .head hstep .refl
    · rw [if_neg hmore] at hstep
      refine .head hstep ?_
      have hrest := ih hmore (pre ++ r.line)
        (done ++ [some { last with len := Word32.sub r.symbol.addr last.addr }]) r.symbol (by
          rw [hlen, symbolText_cons, List.length_append, List.length_append]
          omega)
      have hcount : done.length + 1 + 1 + records.length =
          done.length + 1 + (r :: records).length := by
        rw [List.length_cons]
        omega
      simp only [List.append_assoc, List.length_append, List.length_singleton,
        List.singleton_append, hcount] at hrest
      simpa only [symbolText_cons, List.append_assoc, List.length_append, List.map_cons,
        setLengths] using hrest

/-- The first pass, from the call on. -/
theorem start_reaches_alloc (records : List SymRecord) (hne : records ≠ []) (rest : List UInt8) :
    (SymState.start (symbolText records ++ rest)).Reaches ⟨true, (symbolText records).length, true⟩
      ⟨.alloc, symbolText records ++ rest, ⟨Word32.wrap records.length, .null⟩⟩ := by
  have hpos : (symbolText records).length ≠ 0 := by
    obtain ⟨r, records, rfl⟩ := List.exists_cons_of_ne_nil hne
    simp [symbolText_cons, r.length_line]
  have hstart : (SymState.start (symbolText records ++ rest)).step
      ⟨true, (symbolText records).length, true⟩ =
      .ok ⟨.count 0, symbolText records ++ rest, ⟨0, .null⟩⟩ := by
    simp [SymState.step, SymState.start, hpos]
  have hcount := @reaches_alloc ⟨true, (symbolText records).length, true⟩ rest records hne [] 0
    .null (by simp)
  rw [Nat.zero_add] at hcount
  exact .head hstart hcount

/-- **The two passes over a symbol map** whose table has at most `2 ^ 31` bytes. -/
theorem reaches_returned (records : List SymRecord) (hne : records ≠ []) (rest : List UInt8)
    (hsize : symbolSize * records.length ≤ 2 ^ 31) :
    (SymState.start (symbolText records ++ rest)).Reaches ⟨true, (symbolText records).length, true⟩
      ⟨.returned true, symbolText records ++ rest,
        ⟨records.length, .live ((symbolTable records).map some)⟩⟩ := by
  refine (start_reaches_alloc records hne rest).trans ?_
  have hwrap : Word32.wrap records.length = records.length := by
    simp only [symbolSize] at hsize
    exact Word32.wrap_of_lt (by omega)
  rw [hwrap]
  obtain ⟨r, records, rfl⟩ := List.exists_cons_of_ne_nil hne
  obtain ⟨env, henv⟩ : ∃ env : SymEnv, env = ⟨true, (symbolText (r :: records)).length, true⟩ :=
    ⟨_, rfl⟩
  rw [← henv]
  have hlen : env.mapLen = ([] : List UInt8).length + (symbolText (r :: records)).length := by
    simp [henv]
  have halloc : SymState.step env ⟨.alloc, symbolText (r :: records) ++ rest,
      ⟨(r :: records).length, .null⟩⟩ = .ok ⟨.allocated, symbolText (r :: records) ++ rest,
      ⟨(r :: records).length, .live (none :: List.replicate records.length none)⟩⟩ := by
    have harray : env.array (r :: records).length =
        .live (none :: List.replicate records.length none) :=
      SymEnv.array_of_le (by rw [henv]) (Nat.succ_pos _) hsize
    simp only [SymState.step, harray]
  have hallocated : SymState.step env ⟨.allocated, symbolText (r :: records) ++ rest,
      ⟨(r :: records).length, .live (none :: List.replicate records.length none)⟩⟩ =
      .ok ⟨.parse 0 0, symbolText (r :: records) ++ rest,
      ⟨(r :: records).length, .live (none :: List.replicate records.length none)⟩⟩ := by
    have hpos : env.mapLen ≠ 0 := by
      rw [hlen, symbolText_cons, List.length_append, r.length_line]
      simp
    simp [SymState.step, hpos]
  have hfirst := @parse_line_step env [] rest r records (r :: records).length 0
    (none :: List.replicate records.length none) _ hlen (by simp)
    (storeSymbol_first none _ r.symbol)
  refine .head halloc (.head hallocated (.head hfirst ?_))
  have hreturned : ∀ cells, SymState.step env
      ⟨.parsed (r :: records).length, symbolText (r :: records) ++ rest,
        ⟨(r :: records).length, .live cells⟩⟩ =
      .ok ⟨.returned true, symbolText (r :: records) ++ rest,
        ⟨(r :: records).length, .live cells⟩⟩ := by
    intro cells
    simp [SymState.step]
  by_cases hmore : records = []
  · subst hmore
    exact .head (hreturned _) .refl
  · rw [if_neg hmore]
    have hrest := @reaches_parsed env rest records hmore r.line (r :: records).length []
      r.symbol (by rw [hlen, symbolText_cons, List.length_append]; simp)
    have hcount : ([] : List (Option Symbol)).length + 1 + records.length =
        (r :: records).length := by
      rw [List.length_nil, List.length_cons]
      omega
    rw [hcount, ← List.append_assoc, ← symbolText_cons] at hrest
    exact hrest.trans (.head (hreturned _) .refl)

end Loops

/-! ## Looking up a name -/

section Lookup

variable {sm : SymMap} {name : List UInt8}

theorem length_setLengths (syms : List Symbol) : (setLengths syms).length = syms.length := by
  fun_induction setLengths syms with
  | case1 => rfl
  | case2 sym => rfl
  | case3 sym next syms ih => simp only [List.length_cons, ih]

/-- Nothing but the lengths is set. -/
theorem map_setLengths {β : Type} {g : Symbol → β}
    (h : ∀ (sym : Symbol) (len : ℕ), g { sym with len := len } = g sym) (syms : List Symbol) :
    (setLengths syms).map g = syms.map g := by
  fun_induction setLengths syms with
  | case1 => rfl
  | case2 sym => rfl
  | case3 sym next syms ih =>
    rw [List.map_cons, ih, h]
    rfl

/-- The entry behind those in `before`. -/
theorem SymMap.symbol_at {before table : List Symbol} {sym : Symbol}
    (hlive : sm.symbols = .live ((before ++ sym :: table).map some)) :
    sm.symbol before.length = .ok sym := by
  have hread : readCell ((before ++ sym :: table).map some) before.length = .ok (some sym) := by
    rw [readCell_eq_ok]
    simp
  simp only [SymMap.symbol, hlive, hread, Run.ok_bind]
  rfl

/-- Two names are equal when their records are. -/
theorem strcmp_record (r : SymRecord) (hname : 0 ∉ name) :
    ∃ c, strcmp (name ++ [0]) r.symbol.name = .ok c ∧ (c = 0 ↔ r.name = name) := by
  have hle := r.name_le
  have hsub : symbolMaxLen - r.name.length = symbolMaxLen - 1 - r.name.length + 1 := by
    simp only [symbolMaxLen]
    omega
  obtain ⟨c, hc, hzero⟩ := @strcmp_eq_zero name r.name []
    (List.replicate (symbolMaxLen - 1 - r.name.length) 0) hname r.name_plain.notMem.1
  refine ⟨c, ?_, hzero.trans eq_comm⟩
  rw [SymRecord.symbol, hsub, List.replicate_succ]
  exact hc

/-- **The loop finds the first record with the name.** -/
theorem symbolLookupLoop_eq (hname : 0 ∉ name) (records : List SymRecord)
    (before table : List Symbol)
    (htable : table.map Symbol.name = records.map fun r => r.symbol.name)
    (hlive : sm.symbols = .live ((before ++ table).map some)) :
    symbolLookupLoop sm (name ++ [0]) (List.range' before.length records.length) =
      .ok ((records.findIdx? (·.name = name)).bind fun i => table[i]?) := by
  induction records generalizing before table with
  | nil => rfl
  | cons r records ih =>
    obtain ⟨sym, table, rfl⟩ : ∃ sym rest, table = sym :: rest := by
      apply List.exists_cons_of_ne_nil
      rintro rfl
      simp at htable
    rw [List.map_cons, List.map_cons, List.cons.injEq] at htable
    have hsym := SymMap.symbol_at hlive
    obtain ⟨c, hc, hzero⟩ := strcmp_record r hname
    rw [← htable.1] at hc
    rw [List.length_cons, List.range'_succ, symbolLookupLoop, hsym, Run.ok_bind, hc, Run.ok_bind,
      List.findIdx?_cons]
    by_cases heq : r.name = name
    · rw [if_pos (hzero.mpr heq), if_pos (by simpa using heq)]
      rfl
    · rw [if_neg fun h => heq (hzero.mp h), if_neg (by simpa using heq)]
      have hrest := ih (before ++ [sym]) table htable.2 (by simpa using hlive)
      rw [List.length_append, List.length_singleton] at hrest
      rw [hrest]
      cases records.findIdx? (·.name = name) <;> rfl

theorem symbolLookup_eq (hname : 0 ∉ name) (hne : name ≠ []) (records : List SymRecord) :
    symbolLookup ⟨records.length, .live ((symbolTable records).map some)⟩ (name ++ [0]) =
      .ok ((records.findIdx? (·.name = name)).bind fun i => (symbolTable records)[i]?) := by
  obtain ⟨c, rest, rfl⟩ := List.exists_cons_of_ne_nil hne
  have hc : c ≠ 0 := fun hzero => hname (by rw [hzero]; exact List.mem_cons_self)
  have htable : (symbolTable records).map Symbol.name = records.map fun r => r.symbol.name := by
    rw [symbolTable, map_setLengths fun _ _ => rfl, List.map_map]
    rfl
  have hread : readCell (c :: rest ++ [0]) 0 = .ok c := rfl
  rw [symbolLookup, hread, Run.ok_bind, if_neg hc]
  by_cases hempty : records.length = 0
  · rw [if_pos hempty, List.length_eq_zero_iff.mp hempty]
    rfl
  · rw [if_neg hempty, List.range_eq_range']
    exact symbolLookupLoop_eq hname records [] (symbolTable records) htable rfl

end Lookup

/-! ## The size of the table -/

section Size

variable {env : SymEnv} {s t : SymState}

theorem storeSymbol_length {cells cells' : List (Option Symbol)} {symIndex : ℕ} {sym : Symbol}
    (h : storeSymbol cells symIndex sym = .ok cells') : cells'.length = cells.length := by
  obtain ⟨cells₁, hwrite, h⟩ := Run.bind_eq_ok.mp h
  obtain ⟨-, rfl⟩ := writeCell_ok hwrite
  split_ifs at h
  · obtain rfl := Except.ok.inj h
    exact List.length_set
  · obtain ⟨_ | last, -, h⟩ := Run.bind_eq_ok.mp h
    · cases h
    · obtain ⟨-, rfl⟩ := writeCell_ok h
      rw [List.length_set, List.length_set]

/-- From the call of `kmalloc` for `nb` symbols on: the table has room for as many as `kmalloc` has
granted. -/
def SymState.Sized (nb : ℕ) (s : SymState) : Prop :=
  match s.point with
  | .start | .count _ => False
  | .alloc => s.symMap.nbSyms = nb ∧ s.symMap.symbols = .null
  | _ => ∀ cells, s.symMap.symbols = .live cells → cells.length = symbolRoom nb

theorem SymState.Sized.step {nb : ℕ} (h : s.Sized nb) (hstep : SymStep env s t) : t.Sized nb := by
  cases hstep with
  | skip | start | noLine | count => exact h.elim
  | alloc =>
    obtain ⟨hnb, -⟩ := h
    intro cells hlive
    simp only [SymEnv.array] at hnb hlive
    split_ifs at hlive
    obtain rfl := SymArray.live.inj hlive
    rw [List.length_replicate, hnb]
  | accept heol hcut hentry hline hrestore hstore =>
    have hlen := storeSymbol_length hstore
    rw [h _ rfl] at hlen
    simp only [SymState.Sized]
    split_ifs
    · intro stored hlive
      rw [← SymArray.live.inj hlive, hlen]
    · intro stored hlive
      rw [← SymArray.live.inj hlive, hlen]
  | free =>
    intro cells hlive
    cases hlive
  | refuse | parse | lastLine | reject | oops | done | fail | stay => exact h

theorem SymState.Sized.run {nb : ℕ} (h : s.Sized nb) (hreach : s.Reaches env t) : t.Sized nb :=
  hreach.invariant (fun _ _ hsized hstep => hsized.step (SymState.step_cases hstep)) h

theorem SymState.step_rightUnique : Relator.RightUnique fun s t => SymState.step env s = .ok t := by
  intro s t t' ht ht'
  rw [ht] at ht'
  exact Except.ok.inj ht'

theorem SymState.Reaches.eq_of_returned {result : Bool} (h : s.Reaches env t)
    (hpoint : s.point = .returned result) : t = s := by
  induction h with
  | refl => rfl
  | tail _ hstep ih =>
    subst ih
    simp only [SymState.step, hpoint, Except.ok.injEq] at hstep
    rw [← hstep, ← hpoint]

/-- A table that was filled for `records` has the size that was granted. -/
theorem length_of_returned {records : List SymRecord} {rest : List UInt8} {result : Bool}
    {cells : List (Option Symbol)} (hne : records ≠ [])
    (hreach : (SymState.start (symbolText records ++ rest)).Reaches
      ⟨true, (symbolText records).length, true⟩ s)
    (hpoint : s.point = .returned result) (hlive : s.symMap.symbols = .live cells) :
    cells.length = symbolRoom (Word32.wrap records.length) := by
  have halloc := start_reaches_alloc records hne rest
  have hsized : s.Sized (Word32.wrap records.length) := by
    -- the function is deterministic, so `s` is reached through the call of `kmalloc`
    rcases Relation.ReflTransGen.total_of_right_unique SymState.step_rightUnique halloc hreach with
      hafter | hbefore
    · refine SymState.Sized.run ?_ hafter
      exact ⟨rfl, rfl⟩
    · have heq := SymState.Reaches.eq_of_returned hbefore hpoint
      rw [← heq] at hpoint
      cases hpoint
  rw [SymState.Sized, hpoint] at hsized
  exact hsized cells hlive

end Size

/-! ## The result -/

/-- **The records are loaded**: `symbol_init` has returned true, the table holds the records in
their order, and looking up a name finds the first record with it. -/
structure Loaded (records : List SymRecord) (s : SymState) : Prop where
  returned : s.point = .returned true
  table : s.symMap = ⟨records.length, .live ((symbolTable records).map some)⟩
  lookup : ∀ name, name ≠ [] → 0 ∉ name → symbolLookup s.symMap (name ++ [0]) =
    .ok ((records.findIdx? (·.name = name)).bind fun i => (symbolTable records)[i]?)

/-- A table that is too large is not loaded. -/
theorem Loaded.size_le {records : List SymRecord} {rest : List UInt8} {s : SymState}
    (h : Loaded records s) (hne : records ≠ [])
    (hreach : (SymState.start (symbolText records ++ rest)).Reaches
      ⟨true, (symbolText records).length, true⟩ s) :
    symbolSize * records.length ≤ 2 ^ 31 := by
  have hlen := length_of_returned hne hreach h.returned (by rw [h.table])
  rw [List.length_map, symbolTable, length_setLengths, List.length_map] at hlen
  -- the size in 32 bits does not depend on whether the count is wrapped
  have hroom : symbolRoom (Word32.wrap records.length) = symbolRoom records.length := by
    rw [symbolRoom, symbolRoom, Word32.mul, Word32.mul, Word32.wrap, Word32.wrap, Word32.wrap,
      Nat.mod_mul_mod]
  exact le_symbolRoom_iff.mp (hlen.trans hroom).le

/-- **Exactly when a symbol map is loaded.** For every list of records and whatever follows the text
in memory, `symbol_init` builds the table of the records if and only if the size of the table, 104
bytes for each record, is at most `2 ^ 31`. -/
theorem symbol_init_loads_iff (records : List SymRecord) (hne : records ≠ []) (rest : List UInt8) :
    (∃ s, (SymState.start (symbolText records ++ rest)).Reaches
        ⟨true, (symbolText records).length, true⟩ s ∧ Loaded records s) ↔
      symbolSize * records.length ≤ 2 ^ 31 := by
  constructor
  · rintro ⟨s, hreach, hloaded⟩
    exact hloaded.size_le hne hreach
  · intro hsize
    refine ⟨_, reaches_returned records hne rest hsize, rfl, rfl, fun name hname hnul => ?_⟩
    exact symbolLookup_eq hnul hname records

/-- The record `a b c`. -/
def shortRecord : SymRecord where
  name := [0x61]
  type := [0x62]
  addr := [0x63]
  len := none
  name_ne := by decide
  name_le := by decide
  name_plain := by simp [Plain, space, lf]
  type_ne := by decide
  type_plain := by simp [Plain, space, lf]
  addr_hex := ⟨by decide, by decide, by simp [hexDigit]⟩
  len_hex := by simp

/-- The record `d b 20 8`. -/
def nextRecord : SymRecord where
  name := [0x64]
  type := [0x62]
  addr := [0x32, 0x30]
  len := some [0x38]
  name_ne := by decide
  name_le := by decide
  name_plain := by simp [Plain, space, lf]
  type_ne := by decide
  type_plain := by simp [Plain, space, lf]
  addr_hex := ⟨by decide, by decide, by simp [hexDigit]⟩
  len_hex := by
    rintro digits ⟨⟩
    exact ⟨by decide, by decide, by simp [hexDigit]⟩

/-- Two symbols in the order of the file: the first one reaches up to the second one. -/
theorem symbol_init_loads_iff_two :
    ∃ s, (SymState.start (symbolText [shortRecord, nextRecord] ++ [0x00])).Reaches
        ⟨true, 16, true⟩ s ∧ Loaded [shortRecord, nextRecord] s ∧
      s.symMap = ⟨2, .live [some ⟨0xc, 0x14, 0x61 :: List.replicate 95 0⟩,
        some ⟨0x20, 8, 0x64 :: List.replicate 95 0⟩]⟩ := by
  obtain ⟨s, hreach, hloaded⟩ :=
    (symbol_init_loads_iff [shortRecord, nextRecord] (by decide) [0x00]).mpr (by decide)
  exact ⟨s, hreach, hloaded, hloaded.table⟩

/-- Records that are too many for the table. -/
theorem not_loaded_replicate (n : ℕ) (hsize : 2 ^ 31 < symbolSize * n) (rest : List UInt8) :
    ¬∃ s, (SymState.start (symbolText (List.replicate n shortRecord) ++ rest)).Reaches
        ⟨true, (symbolText (List.replicate n shortRecord)).length, true⟩ s ∧
      Loaded (List.replicate n shortRecord) s := by
  rintro ⟨s, hreach, hloaded⟩
  have hne : List.replicate n shortRecord ≠ [] := by
    rw [Ne, List.replicate_eq_nil_iff]
    rintro rfl
    exact absurd hsize (by decide)
  have hle := hloaded.size_le hne hreach
  rw [List.length_replicate] at hle
  omega

/-- With 41297763 records `kmalloc` is asked for 56 bytes. -/
theorem symbol_init_overflows :
    Word32.mul 41297763 symbolSize = 56 ∧
      ¬∃ s, (SymState.start (symbolText (List.replicate 41297763 shortRecord) ++ [0x00])).Reaches
          ⟨true, (symbolText (List.replicate 41297763 shortRecord)).length, true⟩ s ∧
        Loaded (List.replicate 41297763 shortRecord) s :=
  ⟨by decide, not_loaded_replicate 41297763 (by decide) [0x00]⟩

end Ahos
