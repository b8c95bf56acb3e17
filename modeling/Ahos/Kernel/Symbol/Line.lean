import Ahos.Kernel.Symbol.Load

/-!
# The grammar of a line

What `parse_line` accepts, against the grammar in its comment. The function looks for three spaces
and takes the fields between them as they are: it never asks whether the type or the address is
empty, and `atoh` does not return from a character that is not a digit.
-/

namespace Ahos

/-! ## Fields -/

/-- A line of four fields, the last of which is the rest of the line. The first field is a name, and
the third is not too long for an address. -/
structure Fields (line name type addr rest : List UInt8) : Prop where
  line_eq : line = name ++ space :: (type ++ space :: (addr ++ space :: rest))
  name_ne : name ≠ []
  name_le : name.length ≤ 95
  name_space : space ∉ name
  type_space : space ∉ type
  addr_space : space ∉ addr
  addr_le : addr.length ≤ 8

/-- The documented grammar: `NAME TYPE ADDR [LEN]`, with a space behind each of the first three. -/
def InGrammar (line : List UInt8) : Prop :=
  ∃ name type addr rest, Fields line name type addr rest ∧ type ≠ [] ∧ IsHex addr ∧
    (rest = [] ∨ IsHex rest)

/-- The lines that are treated otherwise: the address is not a number, so that the kernel stops; or
it is, and what follows is short enough for a length, but is not a number, so that the kernel stops,
or the type or the address is empty, and the line is accepted. -/
def Misparsed (line : List UInt8) : Prop :=
  ∃ name type addr rest, Fields line name type addr rest ∧
    (¬ AllHex addr ∨ rest.length ≤ 8 ∧ (¬ AllHex rest ∨ type = [] ∨ addr = []))

/-- The lines with a name that fits in an entry: `parse_line` writes it, whatever follows. -/
def StoresName (line : List UInt8) : Prop :=
  ∃ name tail, line = name ++ space :: tail ∧ space ∉ name ∧ name ≠ [] ∧ name.length ≤ 95

/-- The lines that `parse_line` accepts. -/
def Accepted (line : List UInt8) : Prop :=
  ∃ name type addr rest, Fields line name type addr rest ∧ AllHex addr ∧ rest.length ≤ 8 ∧
    AllHex rest

theorem Accepted.storesName {line : List UInt8} (h : Accepted line) : StoresName line := by
  obtain ⟨name, type, addr, rest, h, -⟩ := h
  exact ⟨name, _, h.line_eq, h.name_space, h.name_ne, h.name_le⟩

/-- The first occurrence of a character splits a text in one way. -/
theorem split_unique {c : UInt8} {w w' tail tail' : List UInt8} (hw : c ∉ w) (hw' : c ∉ w')
    (h : w ++ c :: tail = w' ++ c :: tail') : w = w' ∧ tail = tail' := by
  induction w generalizing w' with
  | nil =>
    cases w' with
    | nil => exact ⟨rfl, (List.cons.inj h).2⟩
    | cons b w' =>
      rw [(List.cons.inj h).1] at hw'
      exact absurd List.mem_cons_self hw'
  | cons b w ih =>
    cases w' with
    | nil =>
      rw [← (List.cons.inj h).1] at hw
      exact absurd List.mem_cons_self hw
    | cons b' w' =>
      obtain ⟨rfl, hrest⟩ := List.cons.inj h
      rw [List.mem_cons, not_or] at hw hw'
      obtain ⟨rfl, htail⟩ := ih hw.2 hw'.2 hrest
      exact ⟨rfl, htail⟩

/-- The fields are determined by the line. -/
theorem Fields.unique {line name type addr rest name' type' addr' rest' : List UInt8}
    (h : Fields line name type addr rest) (h' : Fields line name' type' addr' rest') :
    type = type' ∧ addr = addr' ∧ rest = rest' := by
  have heq := h.line_eq.symm.trans h'.line_eq
  obtain ⟨-, htail⟩ := split_unique h.name_space h'.name_space heq
  obtain ⟨htype, htail⟩ := split_unique h.type_space h'.type_space htail
  obtain ⟨haddr, hrest⟩ := split_unique h.addr_space h'.addr_space htail
  exact ⟨htype, haddr, hrest⟩

/-! ## What the parser does -/

section Parser

variable {pre post line : List UInt8} {p : ℕ}

/-- A line of four fields is accepted, rejected or fatal because of the last two. -/
theorem Fields.parseLine {name type addr rest : List UInt8} (h : Fields line name type addr rest)
    (hnul : 0 ∉ line) (hp : p = pre.length) :
    Ahos.parseLine (pre ++ (line ++ 0 :: post)) p =
      if AllHex addr then
        if 8 < rest.length then .ok (none, pre ++ (line ++ 0 :: post))
        else if AllHex rest then
          .ok (some ⟨hexValue addr, hexValue rest,
              name ++ List.replicate (symbolMaxLen - name.length) 0⟩,
            pre ++ (line ++ 0 :: post))
        else panic "abort"
      else panic "abort" := by
  obtain ⟨rfl, hne, hle, hname, htype, haddr, haddrLe⟩ := h
  simp only [List.mem_append, List.mem_cons, not_or] at hnul
  obtain ⟨hnameNul, -, htypeNul, -, haddrNul, -, hrestNul⟩ := hnul
  obtain ⟨tail, htail⟩ : ∃ tail, tail =
    type ++ space :: (addr ++ space :: (rest ++ 0 :: post)) := ⟨_, rfl⟩
  have hline : name ++ space :: (type ++ space :: (addr ++ space :: rest)) ++ 0 :: post =
      name ++ space :: tail := by
    simp [htail]
  have hchr := @strchr_found (pre ++ (name ++ [space])) (addr ++ space :: (rest ++ 0 :: post))
    type space (p + name.length + 1) (by simp [hp]; omega) (by decide) htypeNul htype
  have hrest := @parseAddr_text (pre ++ (name ++ space :: (type ++ [space]))) post
    (name ++ List.replicate (symbolMaxLen - name.length) 0) addr rest haddrNul haddr hrestNul
    (p + name.length + 1 + type.length + 1) (by simp [hp]; omega)
  simp only [List.append_assoc, List.cons_append, List.nil_append] at hchr hrest
  rw [← htail] at hchr hrest
  rw [if_neg (Nat.not_lt.mpr haddrLe)] at hrest
  rw [hline, parseLine_text hnameNul hname hp, if_neg, hchr, Run.ok_bind]
  · exact hrest
  · rw [not_or, Nat.not_le]
    exact ⟨hne, Nat.lt_succ_of_le hle⟩

/-- Without a third space there is no address. -/
theorem parseAddr_missing (name : List UInt8) {tail : List UInt8} (hnul : 0 ∉ tail)
    (hspace : space ∉ tail) (hp : p = pre.length) :
    parseAddr (pre ++ (tail ++ 0 :: post)) p name = .ok (none, pre ++ (tail ++ 0 :: post)) := by
  rw [parseAddr, strchr_missing hp hnul hspace]
  rfl

/-- A line without a space is rejected. -/
theorem parseLineInto_no_space (entry : Outcome Unit) (hnul : 0 ∉ line) (hspace : space ∉ line)
    (hp : p = pre.length) :
    parseLineInto entry (pre ++ (line ++ 0 :: post)) p =
      .ok (none, pre ++ (line ++ 0 :: post)) := by
  cases line with
  | nil =>
    rw [List.nil_append, parseLineInto, readCell_at hp, Run.ok_bind, if_pos rfl]
    rfl
  | cons c line =>
    have hc : c ≠ 0 := fun hzero => hnul (by rw [hzero]; exact List.mem_cons_self)
    have hread : readCell (pre ++ (c :: line ++ 0 :: post)) p = .ok c := readCell_at hp
    rw [parseLineInto, hread, Run.ok_bind, if_neg hc, strchr_missing hp hnul hspace]
    rfl

/-- **When `parse_line` writes to its entry**: for a line whose name fits in it. -/
theorem parseLineInto_eq (entry : Outcome Unit) (hnul : 0 ∉ line) (hp : p = pre.length) :
    (StoresName line → parseLineInto entry (pre ++ (line ++ 0 :: post)) p =
      entry >>= fun _ => parseLine (pre ++ (line ++ 0 :: post)) p) ∧
    (¬ StoresName line → parseLineInto entry (pre ++ (line ++ 0 :: post)) p =
      .ok (none, pre ++ (line ++ 0 :: post))) := by
  by_cases hspace : space ∈ line
  · obtain ⟨name, tail, rfl, hname⟩ := List.eq_append_cons_of_mem hspace
    simp only [List.mem_append, List.mem_cons, not_or] at hnul
    have hstores : StoresName (name ++ space :: tail) ↔
        ¬ (name = [] ∨ symbolMaxLen ≤ name.length) := by
      rw [not_or, Nat.not_le]
      constructor
      · rintro ⟨name', tail', heq, hname', hne, hle⟩
        obtain ⟨rfl, -⟩ := split_unique hname hname' heq
        exact ⟨hne, Nat.lt_succ_of_le hle⟩
      · exact fun h => ⟨name, tail, rfl, hname, h.1, Nat.le_of_lt_succ h.2⟩
    have htext : name ++ space :: tail ++ 0 :: post = name ++ space :: (tail ++ 0 :: post) := by
      simp
    rw [hstores, htext, parseLineInto_text entry hnul.1 hname hp, parseLine_text hnul.1 hname hp]
    constructor
    · intro h
      rw [if_neg h, if_neg h]
    · intro h
      rw [if_pos (not_not.mp h)]
  · have hno : ¬ StoresName line := by
      rintro ⟨name, tail, rfl, -⟩
      simp at hspace
    exact ⟨fun h => absurd h hno, fun _ => parseLineInto_no_space entry hnul hspace hp⟩

/-- A line without four fields is rejected. -/
theorem parseLine_no_fields (hnul : 0 ∉ line) (hp : p = pre.length)
    (hno : ∀ name type addr rest, ¬ Fields line name type addr rest) :
    parseLine (pre ++ (line ++ 0 :: post)) p = .ok (none, pre ++ (line ++ 0 :: post)) := by
  by_cases hspace : space ∈ line
  · obtain ⟨name, tail, rfl, hname⟩ := List.eq_append_cons_of_mem hspace
    simp only [List.mem_append, List.mem_cons, not_or] at hnul
    obtain ⟨hnameNul, -, htailNul⟩ := hnul
    rw [List.append_assoc, List.cons_append, parseLine_text hnameNul hname hp]
    by_cases hbad : name = [] ∨ symbolMaxLen ≤ name.length
    · rw [if_pos hbad]
    rw [if_neg hbad]
    rw [not_or, Nat.not_le] at hbad
    by_cases hspace' : space ∈ tail
    · obtain ⟨type, tail, rfl, htype⟩ := List.eq_append_cons_of_mem hspace'
      simp only [List.mem_append, List.mem_cons, not_or] at htailNul
      obtain ⟨htypeNul, -, htailNul⟩ := htailNul
      have hchr := @strchr_found (pre ++ (name ++ [space])) (tail ++ 0 :: post) type space
        (p + name.length + 1) (by simp [hp]; omega) (by decide) htypeNul htype
      have hend : p + name.length + 1 + type.length + 1 =
          (pre ++ (name ++ space :: (type ++ [space]))).length := by
        simp [hp]
        omega
      simp only [List.append_assoc, List.cons_append, List.nil_append] at hchr ⊢
      rw [hchr, Run.ok_bind, Option.elim_some]
      by_cases hspace'' : space ∈ tail
      · obtain ⟨addr, rest, rfl, haddr⟩ := List.eq_append_cons_of_mem hspace''
        simp only [List.mem_append, List.mem_cons, not_or] at htailNul
        have hlong : 8 < addr.length := by
          by_contra hle
          exact hno name type addr rest ⟨rfl, hbad.1, Nat.le_of_lt_succ hbad.2, hname, htype, haddr,
            Nat.le_of_not_lt hle⟩
        have hrest := @parseAddr_text _ post
          (name ++ List.replicate (symbolMaxLen - name.length) 0) addr rest htailNul.1 haddr
          htailNul.2.2 _ hend
        rw [if_pos hlong] at hrest
        simp only [List.append_assoc, List.cons_append, List.nil_append] at hrest ⊢
        exact hrest
      · have hrest := @parseAddr_missing _ post _
          (name ++ List.replicate (symbolMaxLen - name.length) 0) tail htailNul hspace'' hend
        simp only [List.append_assoc, List.cons_append, List.nil_append] at hrest
        exact hrest
    · have hchr := @strchr_missing (pre ++ (name ++ [space])) post tail space
        (p + name.length + 1) (by simp [hp]; omega) htailNul hspace'
      simp only [List.append_assoc, List.cons_append, List.nil_append] at hchr
      rw [hchr]
      rfl
  · exact parseLineInto_no_space (.ok ()) hnul hspace hp

/-- What holds of some decomposition of the line into fields holds of each. -/
theorem Fields.exists_iff {P : List UInt8 → List UInt8 → List UInt8 → Prop}
    {name type addr rest : List UInt8} (h : Fields line name type addr rest) :
    (∃ name type addr rest, Fields line name type addr rest ∧ P type addr rest) ↔
      P type addr rest := by
  constructor
  · rintro ⟨name', type', addr', rest', h', hfields⟩
    obtain ⟨rfl, rfl, rfl⟩ := h.unique h'
    exact hfields
  · exact fun hfields => ⟨name, type, addr, rest, h, hfields⟩

/-- A line of four fields is in the grammar because of the last three. -/
theorem Fields.inGrammar_iff {name type addr rest : List UInt8}
    (h : Fields line name type addr rest) :
    InGrammar line ↔ type ≠ [] ∧ IsHex addr ∧ (rest = [] ∨ IsHex rest) :=
  h.exists_iff (P := fun type addr rest => type ≠ [] ∧ IsHex addr ∧ (rest = [] ∨ IsHex rest))

theorem Fields.misparsed_iff {name type addr rest : List UInt8}
    (h : Fields line name type addr rest) :
    Misparsed line ↔
      ¬ AllHex addr ∨ rest.length ≤ 8 ∧ (¬ AllHex rest ∨ type = [] ∨ addr = []) :=
  h.exists_iff (P := fun type addr rest =>
    ¬ AllHex addr ∨ rest.length ≤ 8 ∧ (¬ AllHex rest ∨ type = [] ∨ addr = []))

/-- A number of at most eight digits, which may be absent. -/
theorem eq_nil_or_isHex_iff {w : List UInt8} : w = [] ∨ IsHex w ↔ w.length ≤ 8 ∧ AllHex w := by
  constructor
  · rintro (rfl | h)
    · simp [AllHex]
    · exact ⟨h.length_le, h.digit⟩
  · rintro ⟨hlen, hhex⟩
    by_cases hnil : w = []
    · exact .inl hnil
    · exact .inr ⟨hnil, hlen, hhex⟩

/-- A line that stands behind `pre` in memory, with a NUL behind it, is accepted if it is in the
grammar and rejected if it is not. The kernel goes on, and the memory is as before. -/
def FollowsGrammar (pre post line : List UInt8) : Prop :=
  (InGrammar line → ∃ sym, parseLine (pre ++ (line ++ 0 :: post)) pre.length =
    .ok (some sym, pre ++ (line ++ 0 :: post))) ∧
  (¬ InGrammar line → parseLine (pre ++ (line ++ 0 :: post)) pre.length =
    .ok (none, pre ++ (line ++ 0 :: post)))

theorem followsGrammar_of_rejected (h : parseLine (pre ++ (line ++ 0 :: post)) pre.length =
    .ok (none, pre ++ (line ++ 0 :: post))) : FollowsGrammar pre post line ↔ ¬ InGrammar line := by
  simp [FollowsGrammar, h]

theorem followsGrammar_of_accepted {sym : Symbol}
    (h : parseLine (pre ++ (line ++ 0 :: post)) pre.length =
      .ok (some sym, pre ++ (line ++ 0 :: post))) :
    FollowsGrammar pre post line ↔ InGrammar line := by
  simp [FollowsGrammar, h]

theorem followsGrammar_of_panic {msg : String}
    (h : parseLine (pre ++ (line ++ 0 :: post)) pre.length = panic msg) :
    ¬ FollowsGrammar pre post line := by
  rw [FollowsGrammar, h]
  rintro ⟨haccept, hreject⟩
  by_cases hgrammar : InGrammar line
  · obtain ⟨sym, hsym⟩ := haccept hgrammar
    cases hsym
  · cases hreject hgrammar

/-- **`parse_line` follows its grammar exactly on the lines that are not misparsed.** -/
theorem parse_line_grammar_iff (pre post line : List UInt8) (hnul : 0 ∉ line) :
    FollowsGrammar pre post line ↔ ¬ Misparsed line := by
  by_cases hfields : ∃ name type addr rest, Fields line name type addr rest
  · obtain ⟨name, type, addr, rest, h⟩ := hfields
    have hparse := @Fields.parseLine pre post line _ name type addr rest h hnul rfl
    have hgrammar := h.inGrammar_iff
    rw [eq_nil_or_isHex_iff] at hgrammar
    rw [h.misparsed_iff]
    by_cases haddr : AllHex addr
    · rw [if_pos haddr] at hparse
      by_cases hlong : 8 < rest.length
      · rw [if_pos hlong] at hparse
        rw [followsGrammar_of_rejected hparse, hgrammar]
        simp [haddr, Nat.not_le.mpr hlong]
      · rw [if_neg hlong] at hparse
        have hle := Nat.le_of_not_lt hlong
        by_cases hrest : AllHex rest
        · rw [if_pos hrest] at hparse
          have hisHex : IsHex addr ↔ addr ≠ [] := ⟨IsHex.ne_nil, fun hne => ⟨hne, h.addr_le, haddr⟩⟩
          rw [followsGrammar_of_accepted hparse, hgrammar, hisHex]
          simp [haddr, hle, hrest]
        · rw [if_neg hrest] at hparse
          exact iff_of_false (followsGrammar_of_panic hparse) (by simp [hle, hrest])
    · rw [if_neg haddr] at hparse
      exact iff_of_false (followsGrammar_of_panic hparse) (by simp [haddr])
  · push Not at hfields
    rw [followsGrammar_of_rejected (parseLine_no_fields hnul rfl hfields)]
    apply not_congr
    constructor
    · rintro ⟨name, type, addr, rest, h, -⟩
      exact absurd h (hfields name type addr rest)
    · rintro ⟨name, type, addr, rest, h, -⟩
      exact absurd h (hfields name type addr rest)

/-- The line `a b c ` is accepted. -/
theorem parse_line_grammar_short :
    FollowsGrammar [] [] [0x61, space, 0x62, space, 0x63, space] := by
  have hfields : Fields [0x61, space, 0x62, space, 0x63, space] [0x61] [0x62] [0x63] [] :=
    ⟨rfl, by decide, by decide, by decide, by decide, by decide, by decide⟩
  rw [parse_line_grammar_iff _ _ _ (by decide), hfields.misparsed_iff]
  rintro (haddr | ⟨-, hrest | htype | haddr⟩)
  · exact haddr shortRecord.addr_hex.digit
  · exact hrest fun c hc => by cases hc
  · cases htype
  · cases haddr

/-- The line `a b z ` stops the kernel, and `a  1 ` is accepted without a type. -/
theorem parse_line_not_grammar :
    (¬ ∀ pre post line : List UInt8, 0 ∉ line → lf ∉ line → FollowsGrammar pre post line) ∧
      parseLine [0x61, space, 0x62, space, 0x7a, space, 0] 0 = panic "abort" ∧
      ∃ sym mem, parseLine [0x61, space, space, 0x31, space, 0] 0 = .ok (some sym, mem) := by
  have habort : parseLine [0x61, space, 0x62, space, 0x7a, space, 0] 0 = panic "abort" := by decide
  refine ⟨fun h => ?_, habort, _, _, rfl⟩
  exact @followsGrammar_of_panic [] [] _ _ habort
    (h [] [] [0x61, space, 0x62, space, 0x7a, space] (by decide) (by decide))

end Parser

end Ahos
