import Ahos.Kernel.Symbol.Passes

/-!
# What lies behind the module

The symbol map is a module of a given length, without a NUL at its end. A search for a line end that
starts inside the module ends inside it if it meets a line feed or a NUL there, and otherwise goes
on in what lies behind. `symbol_init` tests the end of the module only after the search.
-/

namespace Ahos

/-! ## Searches inside a part of the memory -/

section Search

variable {c : UInt8} {mem : List UInt8} {p : ℕ}

theorem strchrFrom_append {bytes : List UInt8} (h : 0 ∈ bytes ∨ c ∈ bytes) (rest : List UInt8) :
    strchrFrom c (bytes ++ rest) p = strchrFrom c bytes p := by
  induction bytes generalizing p with
  | nil => simp at h
  | cons b bytes ih =>
    rw [List.cons_append, strchrFrom, strchrFrom]
    by_cases hnul : b = 0
    · rw [if_pos hnul, if_pos hnul]
    · by_cases hc : b = c
      · rw [if_neg hnul, if_pos hc, if_neg hnul, if_pos hc]
      · rw [if_neg hnul, if_neg hc, if_neg hnul, if_neg hc]
        apply ih
        simpa [Ne.symm hnul, Ne.symm hc] using h

/-- A search that ends in a part of the memory does not depend on what lies behind it. -/
theorem strchr_append (h : 0 ∈ mem.drop p ∨ c ∈ mem.drop p) (rest : List UInt8) :
    strchr (mem ++ rest) p c = strchr mem p c := by
  have hlt : p ≤ mem.length := by
    by_contra hle
    rw [List.drop_eq_nil_of_le (by omega)] at h
    simp at h
  rw [strchr, strchr, List.drop_append_of_le_length hlt, strchrFrom_append h]

/-- A text that ends with a character has it behind every place. -/
theorem mem_drop_of_getLast? (hlast : mem.getLast? = some c) (hp : p < mem.length) :
    c ∈ mem.drop p := by
  apply List.mem_of_getLast?
  rw [List.getLast?_drop, if_neg (by omega), hlast]

end Search

/-! ## Steps inside the module -/

/-- The same state, with more bytes behind the memory. -/
def SymState.behind (s : SymState) (rest : List UInt8) : SymState := { s with mem := s.mem ++ rest }

section Inside

variable {env : SymEnv} {text : List UInt8} {s t : SymState}

/-- In every state of a call, the step in a memory that ends with the module is the step whatever
lies behind the module: it neither reads nor writes there. -/
def StaysInside (env : SymEnv) (text : List UInt8) : Prop :=
  ∀ s, (SymState.start text).Reaches env s → ∀ rest,
    (s.behind rest).step env = (s.step env).map fun t => t.behind rest

theorem afterLine_behind (rest : List UInt8) (cells : List (Option Symbol)) (eol symIndex : ℕ)
    (sym : Option Symbol) :
    afterLine env (s.behind rest) cells eol symIndex sym =
      (afterLine env s cells eol symIndex sym).map fun t => t.behind rest := by
  cases sym with
  | none => rfl
  | some sym =>
    simp only [afterLine]
    cases storeSymbol cells symIndex sym <;> rfl

/-- A round of the second pass inside the module. -/
theorem parseStep_behind (rest : List UInt8) {cells : List (Option Symbol)} {ptr symIndex : ℕ}
    (h : lf ∈ s.mem.drop ptr) :
    parseStep env (s.behind rest) cells ptr symIndex =
      (parseStep env s cells ptr symIndex).map fun t => t.behind rest := by
  have happend : strchr (s.behind rest).mem ptr lf = strchr s.mem ptr lf :=
    strchr_append (.inr h) rest
  cases hfound : strchr s.mem ptr lf with
  | error e => simp only [parseStep, happend, hfound, Run.error_bind]; rfl
  | ok found =>
    cases found with
    | none =>
      simp only [parseStep, happend, hfound, Run.ok_bind]
      split_ifs <;> rfl
    | some eol =>
      obtain ⟨pre, w, post, hmem, rfl, hnul, hlf, -⟩ := strchr_eq_some hfound
      have hmem' : (s.behind rest).mem = pre ++ (w ++ lf :: (post ++ rest)) := by
        simp [SymState.behind, hmem]
      rw [parseStep_line hmem hnul hlf, parseStep_line hmem' hnul hlf]
      cases lineResult (accessCell cells symIndex) w with
      | error e => rfl
      | ok sym => exact afterLine_behind rest cells _ symIndex sym

/-- What holds of the place in the text: each search that is still to come meets a NUL or a line
feed. -/
def SymState.Inside (text : List UInt8) (s : SymState) : Prop :=
  s.mem = text ∧
    match s.point with
    | .count ptr =>
      ptr < text.length ∧ (text.getLast? = some lf ∨ 0 ∈ text.drop ptr)
    | .alloc | .allocated => text ≠ [] ∧ text.getLast? = some lf
    | .parse ptr _ => ptr < text.length ∧ text.getLast? = some lf
    | _ => True

theorem SymState.Inside.step_behind (h : s.Inside text) (rest : List UInt8) :
    (s.behind rest).step env = (s.step env).map fun t => t.behind rest := by
  obtain ⟨point, mem, sm⟩ := s
  obtain ⟨rfl, h⟩ := h
  cases point with
  | start =>
    simp only [SymState.step, SymState.behind]
    split_ifs <;> rfl
  | count ptr =>
    obtain ⟨hlt, hends⟩ := h
    simp only at hlt hends
    have happend : strchr (mem ++ rest) ptr lf = strchr mem ptr lf := by
      apply strchr_append
      exact hends.symm.imp_right fun hlast => mem_drop_of_getLast? hlast hlt
    simp only [SymState.step, SymState.behind, happend]
    cases strchr mem ptr lf with
    | error e => rfl
    | ok found =>
      cases found with
      | none =>
        simp only [Run.ok_bind]
        split_ifs <;> rfl
      | some eol => rfl
  | allocated =>
    obtain ⟨nb, _ | cells | _⟩ := sm
    · rfl
    · have hstep : ∀ mem, (⟨.allocated, mem, ⟨nb, .live cells⟩⟩ : SymState).step env =
          if env.mapLen = 0 ∨ nb = 0 then .ok ⟨.failed, mem, ⟨nb, .live cells⟩⟩
          else .ok ⟨.parse 0 0, mem, ⟨nb, .live cells⟩⟩ := fun _ => rfl
      rw [SymState.behind, hstep, hstep]
      split_ifs <;> rfl
    · rfl
  | parse ptr symIndex =>
    obtain ⟨nb, _ | cells | _⟩ := sm
    · rfl
    · exact parseStep_behind rest (mem_drop_of_getLast? h.2 h.1)
    · rfl
  | parsed symIndex =>
    have hstep : ∀ mem, (⟨.parsed symIndex, mem, sm⟩ : SymState).step env =
        if symIndex ≠ sm.nbSyms then .ok ⟨.failed, mem, sm⟩
        else .ok ⟨.returned true, mem, sm⟩ := fun _ => rfl
    rw [SymState.behind, hstep, hstep]
    split_ifs <;> rfl
  | alloc | failed | fail | returned => rfl

/-- A search that ends inside the text does not leave the memory. -/
theorem strchr_ne_outOfBounds {c : UInt8} {mem : List UInt8} {p : ℕ}
    (h : 0 ∈ mem.drop p ∨ c ∈ mem.drop p) : strchr mem p c ≠ .error .outOfBounds := by
  rw [strchr]
  generalize mem.drop p = bytes at h
  induction bytes generalizing p with
  | nil => simp at h
  | cons b bytes ih =>
    rw [strchrFrom]
    split_ifs with hnul hc
    · exact fun h => by cases h
    · exact fun h => by cases h
    · refine ih ?_
      simpa [Ne.symm hnul, Ne.symm hc] using h

/-- Where the searches end inside the text. -/
def EndsInside (loaded : Bool) (text : List UInt8) : Prop :=
  loaded = false ∨ text = [] ∨ text.getLast? = some lf ∨ 0 ∈ text

theorem SymState.Inside.step (hlen : env.mapLen = text.length) (hends : EndsInside env.loaded text)
    (h : s.Inside text) (hs : s.step env = .ok t) : t.Inside text := by
  refine ⟨(SymState.step_mem hs).trans h.1, ?_⟩
  cases SymState.step_cases hs with
  | start hloaded hpos =>
    rw [hlen] at hpos
    refine ⟨Nat.pos_of_ne_zero hpos, ?_⟩
    rw [List.drop_zero]
    obtain hno | rfl | hends := hends
    · simp [hno] at hloaded
    · simp at hpos
    · exact hends
  | @count ptr eol mem sm heol =>
    obtain ⟨rfl, hlt, hends⟩ := h
    simp only at hlt hends hlen ⊢
    obtain ⟨pre, w, post, rfl, rfl, hnul, -, rfl⟩ := strchr_eq_some heol
    -- a NUL that lies ahead lies behind the line
    have hpost : (pre ++ (w ++ lf :: post)).getLast? = some lf ∨ 0 ∈ post := by
      refine hends.imp_right fun hmem => ?_
      rw [List.drop_left, List.mem_append, List.mem_cons] at hmem
      exact (hmem.resolve_left hnul).resolve_left (by decide)
    have hdrop : (pre ++ (w ++ lf :: post)).drop (pre.length + w.length + 1) = post := by
      have hsplit : pre ++ (w ++ lf :: post) = pre ++ w ++ [lf] ++ post := by simp
      rw [hsplit, List.drop_left' (by simp [Nat.add_assoc])]
    split_ifs with hnext
    · rw [hlen] at hnext
      exact ⟨hnext, by rw [hdrop]; exact hpost⟩
    · refine ⟨by simp, hpost.resolve_right fun hmem => hnext ?_⟩
      have hpos := List.length_pos_of_mem hmem
      simp only [hlen, List.length_append, List.length_cons]
      omega
  | parse hne => exact ⟨List.length_pos_of_ne_nil h.2.1, h.2.2⟩
  | alloc => exact h.2
  | accept heol =>
    simp only
    split_ifs with hnext
    · exact ⟨hlen ▸ hnext, h.2.2⟩
    · trivial
  | skip | noLine | refuse | lastLine | reject | oops | done | free | fail | stay => exact trivial

/-- **Where the searches end inside the text, no step depends on what lies behind it.** -/
theorem staysInside (hlen : env.mapLen = text.length) (hends : EndsInside env.loaded text) :
    StaysInside env text := by
  intro s hreach rest
  have hinside : s.Inside text :=
    hreach.invariant (fun _ _ h hstep => h.step hlen hends hstep) ⟨rfl, trivial⟩
  exact hinside.step_behind rest

end Inside

/-! ## Two memories -/

/-- `symbol_init` returns `result` and leaves the table `sm`. -/
def SymInitReturns (env : SymEnv) (mem : List UInt8) (result : Bool) (sm : SymMap) : Prop :=
  ∃ mem', (SymState.start mem).Reaches env ⟨.returned result, mem', sm⟩

/-- `symbol_init` depends on the bytes of the module only: with equal answers of `kmalloc` it
returns the same result and builds the same table, whatever lies behind the module, it neither
reads nor writes there, and it writes no entry outside of the array. -/
structure DependsOnModule (loaded : Bool) (text : List UInt8) : Prop where
  same : ∀ kmallocs rest₁ rest₂ result sm,
    SymInitReturns ⟨loaded, text.length, kmallocs⟩ (text ++ rest₁) result sm →
    SymInitReturns ⟨loaded, text.length, kmallocs⟩ (text ++ rest₂) result sm
  inside : ∀ kmallocs, StaysInside ⟨loaded, text.length, kmallocs⟩ text
  array : ∀ kmallocs rest s,
    (SymState.start (text ++ rest)).Reaches ⟨loaded, text.length, kmallocs⟩ s →
      s.step ⟨loaded, text.length, kmallocs⟩ ≠ .error .outOfBounds

/-- Each line whose name is stored has an entry: all lines before it are accepted, and then its
number is one of the array. For a size that wraps to zero there is no array, and no line is
parsed. -/
def FitsArray (lines : List (List UInt8)) : Prop :=
  Word32.mul lines.length symbolSize ≠ 0 → ∀ i line, lines[i]? = some line →
    (∀ before ∈ lines.take i, Accepted before) → StoresName line → i < symbolRoom lines.length

/-- The lines of the module fit the array. -/
def TextFits (loaded : Bool) (text : List UInt8) : Prop :=
  loaded = true → ∀ lines, Lines text.length text 0 lines → FitsArray lines

/-- At most 20648881 lines always fit. -/
theorem fitsArray_of_le {lines : List (List UInt8)} (h : symbolSize * lines.length ≤ 2 ^ 31) :
    FitsArray lines := by
  intro _ i line hline _ _
  obtain ⟨hi, -⟩ := List.getElem?_eq_some_iff.mp hline
  rwa [symbolRoom_of_le h]

section Module

variable {env : SymEnv} {text : List UInt8}

/-- Steps that stay inside give the same result behind every memory. -/
theorem StaysInside.returns_iff (h : StaysInside env text) (rest : List UInt8) (result : Bool)
    (sm : SymMap) :
    SymInitReturns env (text ++ rest) result sm ↔
      ∃ mem, (SymState.start text).Reaches env ⟨.returned result, mem, sm⟩ := by
  have hmap := fun u => @Run.reaches_map_iff Halt SymState SymState (fun s => s.step env)
    (fun s => s.step env) (fun s => s.behind rest) (.start text) (fun s hs => h s hs rest) u
  constructor
  · rintro ⟨mem', hreach⟩
    obtain ⟨s, hs, heq⟩ := (hmap _).mp hreach
    obtain ⟨point, mem, sm'⟩ := s
    obtain ⟨rfl, -, rfl⟩ := SymState.mk.inj heq
    exact ⟨mem, hs⟩
  · rintro ⟨mem, hreach⟩
    exact ⟨mem ++ rest, (hmap _).mpr ⟨_, hreach, rfl⟩⟩

/-- The last line of a text that has no NUL and does not end with a line feed. -/
theorem reaches_last_line (hlen : env.mapLen = text.length) (hnul : 0 ∉ text)
    (hlast : text.getLast? ≠ some lf) (tail : List UInt8) {ptr : ℕ} {sm : SymMap}
    (hptr : ptr < text.length) :
    ∃ ptr' nb, ptr' < text.length ∧ lf ∉ text.drop ptr' ∧
      SymState.Reaches env ⟨.count ptr, text ++ tail, sm⟩
        ⟨.count ptr', text ++ tail, ⟨nb, sm.symbols⟩⟩ := by
  induction hleft : text.length - ptr using Nat.strong_induction_on generalizing ptr sm with
  | _ left ih =>
    by_cases hmore : lf ∈ text.drop ptr
    · obtain ⟨pre, w, post, rfl, rfl, hw⟩ := exists_first hmore
      simp only [List.mem_append, List.mem_cons, not_or] at hnul
      -- the line feed is not the last character, so another line follows
      have hpost : post ≠ [] := by
        rintro rfl
        simp at hlast
      have hpos := List.length_pos_of_ne_nil hpost
      simp only [List.length_append, List.length_cons] at hlen hptr hleft ih
      have hnext : pre.length + w.length + 1 < env.mapLen := by omega
      have heol : strchr (pre ++ (w ++ lf :: post) ++ tail) pre.length lf =
          .ok (some (pre.length + w.length)) := by
        rw [List.append_assoc, List.append_assoc]
        exact strchr_found rfl (by decide) hnul.2.1 hw
      obtain ⟨ptr', nb, hptr', hno, hreach⟩ := @ih (left - (w.length + 1)) (by omega)
        (pre.length + w.length + 1) { sm with nbSyms := Word32.add sm.nbSyms 1 } (by omega)
        (by omega)
      refine ⟨ptr', nb, by simpa using hptr', hno, .head ?_ hreach⟩
      simp only [SymState.step, heol, Run.ok_bind, if_pos hnext]
      rfl
    · exact ⟨ptr, sm.nbSyms, hptr, hmore, .refl⟩

/-- A call in such a memory comes to the last line. -/
theorem start_reaches_last_line {kmallocs : Bool} (hne : text ≠ []) (hnul : 0 ∉ text)
    (hlast : text.getLast? ≠ some lf) (tail : List UInt8) :
    ∃ pre w nb, text = pre ++ w ∧ w ≠ [] ∧ lf ∉ w ∧
      (SymState.start (text ++ tail)).Reaches ⟨true, text.length, kmallocs⟩
        ⟨.count pre.length, text ++ tail, ⟨nb, .null⟩⟩ := by
  have hpos := List.length_pos_of_ne_nil hne
  have hstart : (SymState.start (text ++ tail)).step ⟨true, text.length, kmallocs⟩ =
      .ok ⟨.count 0, text ++ tail, ⟨0, .null⟩⟩ := by
    simp [SymState.step, SymState.start, hne]
  obtain ⟨ptr, nb, hptr, hno, hreach⟩ := @reaches_last_line ⟨true, text.length, kmallocs⟩ text
    rfl hnul hlast tail 0 ⟨0, .null⟩ hpos
  refine ⟨text.take ptr, text.drop ptr, nb, (List.take_append_drop ptr text).symm, ?_, hno, ?_⟩
  · rw [Ne, List.drop_eq_nil_iff]
    omega
  · rw [List.length_take_of_le (by omega)]
    exact .head hstart hreach

/-- With a NUL behind the text, the last line has no line feed and the call fails. -/
theorem returns_false_nul {kmallocs : Bool} (hlen : text.length < 4294967296) (hne : text ≠ [])
    (hnul : 0 ∉ text) (hlast : text.getLast? ≠ some lf) :
    SymInitReturns ⟨true, text.length, kmallocs⟩ (text ++ [0]) false ⟨0, .null⟩ := by
  obtain ⟨pre, w, nb, rfl, hw, hno, hreach⟩ :=
    @start_reaches_last_line text kmallocs hne hnul hlast [0]
  rw [List.mem_append, not_or] at hnul
  have hpos := List.length_pos_of_ne_nil hw
  rw [List.length_append] at hlen
  have hsub : Word32.sub (pre ++ w).length pre.length > 0 := by
    rw [List.length_append, Word32.sub_of_le (by omega) hlen]
    omega
  have heol : strchr (pre ++ w ++ [0]) pre.length lf = .ok none := by
    rw [List.append_assoc]
    exact strchr_missing rfl hnul.2 hno
  have hstep : SymState.step ⟨true, (pre ++ w).length, kmallocs⟩
      ⟨.count pre.length, pre ++ w ++ [0], ⟨nb, .null⟩⟩ =
      .ok ⟨.fail, pre ++ w ++ [0], ⟨nb, .null⟩⟩ := by
    simp only [SymState.step, heol, Run.ok_bind, if_pos hsub]
    rfl
  exact ⟨pre ++ w ++ [0], hreach.trans (.head hstep (.head rfl .refl))⟩

/-- With a line feed behind the text, the last line is counted. -/
theorem reaches_allocated_lf (hne : text ≠ []) (hnul : 0 ∉ text)
    (hlast : text.getLast? ≠ some lf) :
    ∃ s, (SymState.start (text ++ [lf])).Reaches ⟨true, text.length, false⟩ s ∧
      s.point = .allocated ∧ s.step ⟨true, text.length, false⟩ = panic notImplemented := by
  obtain ⟨pre, w, nb, rfl, -, hno, hreach⟩ :=
    @start_reaches_last_line text false hne hnul hlast [lf]
  rw [List.mem_append, not_or] at hnul
  have heol : strchr (pre ++ w ++ [lf]) pre.length lf = .ok (some (pre.length + w.length)) := by
    rw [List.append_assoc]
    exact strchr_found rfl (by decide) hnul.2 hno
  have hend : ¬ pre.length + w.length + 1 < (pre ++ w).length := by
    rw [List.length_append]
    omega
  have hstep : SymState.step ⟨true, (pre ++ w).length, false⟩
      ⟨.count pre.length, pre ++ w ++ [lf], ⟨nb, .null⟩⟩ =
      .ok ⟨.alloc, pre ++ w ++ [lf], ⟨Word32.add nb 1, .null⟩⟩ := by
    simp only [SymState.step, heol, Run.ok_bind, if_neg hend]
    rfl
  exact ⟨⟨.allocated, pre ++ w ++ [lf], ⟨Word32.add nb 1, .null⟩⟩,
    hreach.trans (.head hstep (.head rfl .refl)), rfl, rfl⟩

/-- A text with an open end is searched beyond it. -/
theorem not_dependsOnModule (hlen : text.length < 4294967296) (hne : text ≠ []) (hnul : 0 ∉ text)
    (hlast : text.getLast? ≠ some lf) : ¬ DependsOnModule true text := by
  intro h
  obtain ⟨mem, hreturned⟩ := h.same false [0] [lf] false ⟨0, .null⟩
    (returns_false_nul hlen hne hnul hlast)
  obtain ⟨s, hs, hpoint, hpanic⟩ := reaches_allocated_lf hne hnul hlast
  -- the call stops in the kernel's panic, so it does not return
  obtain hafter | hbefore :=
    Relation.ReflTransGen.total_of_right_unique SymState.step_rightUnique hs hreturned
  · obtain rfl | ⟨t, hstep, -⟩ := Relation.ReflTransGen.cases_head hafter
    · cases hpoint
    · rw [hpanic] at hstep
      cases hstep
  · rw [SymState.Reaches.eq_of_returned hbefore rfl] at hpoint
    cases hpoint

/-- A module that is not loaded is not parsed. -/
theorem loaded_of_parse {s : SymState} {ptr symIndex : ℕ}
    (hreach : (SymState.start text).Reaches env s) (hpoint : s.point = .parse ptr symIndex) :
    env.loaded = true := by
  by_contra hloaded
  have hempty : s.Empty env text := hreach.invariant
    (fun _ _ h hstep => h.step (.inl (by simpa using hloaded)) (SymState.step_cases hstep))
    ⟨rfl, rfl, .inl rfl⟩
  simp [SymState.Empty, hpoint] at hempty

/-- **Inside the text and the array, no step goes out of bounds.** -/
theorem step_ne_outOfBounds (hlen : text.length < 4294967296) (hmapLen : env.mapLen = text.length)
    (hends : EndsInside env.loaded text) (hfits : TextFits env.loaded text) {s : SymState}
    (hreach : (SymState.start text).Reaches env s) : s.step env ≠ .error .outOfBounds := by
  have hinside : s.Inside text :=
    hreach.invariant (fun _ _ h hstep => h.step hmapLen hends hstep) ⟨rfl, trivial⟩
  have htracks := hreach.tracks (by omega)
  have htable := hreach.tableInv
  have hloaded := @loaded_of_parse env text s
  obtain ⟨point, mem, nb, symbols⟩ := s
  obtain ⟨rfl, hinside⟩ := hinside
  cases point with
  | count ptr =>
    obtain ⟨hlt, hsearch⟩ := hinside
    simp only at hlt hsearch
    have hne : strchr mem ptr lf ≠ .error .outOfBounds :=
      strchr_ne_outOfBounds (hsearch.symm.imp_right fun hlast => mem_drop_of_getLast? hlast hlt)
    refine Run.bind_ne_error hne fun found _ => ?_
    cases found with
    | none =>
      simp only
      split_ifs <;> exact fun h => by cases h
    | some eol => exact fun h => by cases h
  | parse ptr symIndex =>
    obtain ⟨done, todo, cells, hall, htodo, haccepted, rfl, hmap, hroom, harray⟩ := htracks
    obtain ⟨stored, hlive, hfilled⟩ := htable
    obtain ⟨rfl, rfl⟩ := SymMap.mk.inj hmap
    obtain rfl := SymArray.live.inj hlive
    obtain ⟨line, rest, rfl, hline, -⟩ := htodo.cases_first
    refine hline.step_ne_outOfBounds (fun hstores => ?_) hfilled
    have hmul : Word32.mul (done ++ line :: rest).length symbolSize ≠ 0 := by
      intro hzero
      rw [SymEnv.array, if_neg fun h => h.2 hzero] at harray
      exact harray rfl
    rw [hmapLen] at hall
    rw [hroom]
    exact hfits (hloaded hreach rfl) _ hall hmul done.length line (by simp)
      (by simpa using haccepted) hstores
  | allocated =>
    cases symbols with
    | live cells =>
      simp only [SymState.step]
      split_ifs <;> exact fun h => by cases h
    | null => exact fun h => by cases h
    | freed => exact fun h => by cases h
  | start =>
    simp only [SymState.step]
    split_ifs <;> exact fun h => by cases h
  | parsed symIndex =>
    simp only [SymState.step]
    split_ifs <;> exact fun h => by cases h
  | alloc | failed | fail | returned => exact fun h => by cases h

/-- **A line without an entry is reached.** -/
theorem not_array (hlen : text.length < 4294967296) {lines : List (List UInt8)}
    (hlines : Lines text.length text 0 lines) (hfits : ¬ FitsArray lines) :
    ∃ s, (SymState.start text).Reaches ⟨true, text.length, true⟩ s ∧
      s.step ⟨true, text.length, true⟩ = .error .outOfBounds := by
  rw [FitsArray] at hfits
  push Not at hfits
  obtain ⟨hmul, i, line, hget, haccepted, hstores, hroom⟩ := hfits
  obtain ⟨hi, rfl⟩ := List.getElem?_eq_some_iff.mp hget
  obtain ⟨k, hk⟩ : ∃ k, k = symbolRoom lines.length := ⟨_, rfl⟩
  rw [← hk] at hroom
  -- the first line without an entry stores its name too
  have hkLt : k < lines.length := by omega
  have hfirst : StoresName lines[k] := by
    obtain rfl | hlt := hroom.eq_or_lt
    · exact hstores
    · exact (haccepted _ (List.mem_take_iff_getElem.mpr ⟨k, by omega, rfl⟩)).storesName
  have hbefore : ∀ l ∈ lines.take k, Accepted l := fun l hl =>
    haccepted l (List.take_subset_take_left lines hroom hl)
  have hpos : 0 < text.length := by
    obtain ⟨first, rest, -, hline, -⟩ := hlines.cases_first
    obtain ⟨pre, post, hmem, -⟩ := hline.split
    rw [hmem]
    simp
  have hle := hlines.length_le hpos
  have harray : SymEnv.array ⟨true, text.length, true⟩ lines.length ≠ .null := by
    simp [SymEnv.array, hmul]
  have hstart : (SymState.start text).step ⟨true, text.length, true⟩ =
      .ok ⟨.count 0, text, ⟨0, .null⟩⟩ := by
    simp [SymState.step, SymState.start, List.ne_nil_of_length_pos hpos]
  have hcount := @count_reaches_alloc ⟨true, text.length, true⟩ text lines 0 0 .null hlines (by omega)
  rw [Nat.zero_add] at hcount
  have hparse := @alloc_reaches_parse ⟨true, text.length, true⟩ text lines hpos hlines harray .null
  have hsplit : lines.take k ++ lines.drop k = lines := List.take_append_drop k lines
  obtain ⟨ptr, cells, hreach, hlast, hcells, -⟩ := @reaches_accepted ⟨true, text.length, true⟩ text
    (lines.take k) (lines.drop k) lines.length 0 0 (List.replicate (symbolRoom lines.length) none)
    (by rw [Ne, List.drop_eq_nil_iff]; omega) (by rw [hsplit]; exact hlines) hbefore
    (by rw [List.length_replicate, List.length_take]; omega)
    (fun i hi => absurd hi (Nat.not_lt_zero i))
  obtain ⟨first, rest, heq, hline, -⟩ := hlast.cases_first
  have hdrop := List.drop_eq_getElem_cons (l := lines) (i := k) hkLt
  rw [heq] at hdrop
  obtain ⟨rfl, -⟩ := List.cons.inj hdrop
  have hnb : (lines.take k).length = k := by
    rw [List.length_take]
    omega
  rw [Nat.zero_add, hnb] at hreach
  rw [List.length_replicate, ← hk] at hcells
  exact ⟨_, .head hstart (hcount.trans (hparse.trans hreach)),
    hline.step_overrun hfirst hcells.le⟩

/-- **Exactly when `symbol_init` depends on the module only** and stays in its array. It does if and
only if there is no module, or an empty one, or its last byte is a line feed, or it contains a NUL,
and each line whose name is stored has an entry in the array. -/
theorem symbol_init_depends_on_module_iff (loaded : Bool) (text : List UInt8)
    (hlen : text.length < 4294967296) :
    DependsOnModule loaded text ↔ EndsInside loaded text ∧ TextFits loaded text := by
  constructor
  · intro h
    constructor
    · by_contra hends
      simp only [EndsInside, not_or, Bool.not_eq_false] at hends
      obtain ⟨rfl, hne, hlast, hnul⟩ := hends
      exact not_dependsOnModule hlen hne hnul hlast h
    · rintro rfl lines hlines
      by_contra hfits
      obtain ⟨s, hreach, hstep⟩ := not_array hlen hlines hfits
      rw [← List.append_nil text] at hreach
      exact h.array true [] s (by simpa using hreach) (by simpa using hstep)
  · rintro ⟨hends, hfits⟩
    have hinside : ∀ kmallocs, StaysInside ⟨loaded, text.length, kmallocs⟩ text :=
      fun kmallocs => staysInside rfl hends
    refine ⟨fun kmallocs rest₁ rest₂ result sm hreturns => ?_, hinside, fun kmallocs rest s hs => ?_⟩
    · rw [(hinside kmallocs).returns_iff] at hreturns ⊢
      exact hreturns
    · -- the states with something behind the module are those without it
      obtain ⟨t, ht, rfl⟩ := (Run.reaches_map_iff (f := fun s : SymState => s.behind rest)
        fun u hu => hinside kmallocs u hu rest).mp hs
      rw [hinside kmallocs t ht rest]
      have hne := step_ne_outOfBounds hlen rfl hends hfits ht
      intro herror
      cases hstep : t.step ⟨loaded, text.length, kmallocs⟩ with
      | ok u =>
        rw [hstep] at herror
        cases herror
      | error halt =>
        rw [hstep] at herror hne
        exact hne (by rw [Except.error.inj herror])

/-- The map of two records depends on its bytes only. -/
theorem symbol_init_depends_on_module_two :
    DependsOnModule true (symbolText [shortRecord, nextRecord]) := by
  refine (symbol_init_depends_on_module_iff true _ (by decide)).mpr
    ⟨.inr (.inr (.inl rfl)), fun _ lines hlines => ?_⟩
  have hrecords := lines_symbolText [shortRecord, nextRecord] (by decide) [] []
  rw [List.length_nil, Nat.zero_add, List.append_nil, List.nil_append] at hrecords
  rw [hlines.unique hrecords]
  exact fitsArray_of_le (by decide)

/-- The text `a b c ` without a line feed is not loaded when a NUL follows, and counted as a line
when a line feed follows. -/
theorem symbol_init_reads_behind :
    ¬ ∀ loaded text, text.length < 4294967296 → DependsOnModule loaded text := by
  intro h
  exact @not_dependsOnModule [0x61, space, 0x62, space, 0x63, space] (by decide) (by decide)
    (by decide) (by decide) (h true _ (by decide))

end Module

end Ahos
