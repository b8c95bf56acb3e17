import Ahos.Mem.Memory

/-!
# Strings of the C library

`strchr`, `strlen`, `strncpy`, `strcmp` and `atoh` of `libc`. Memory is the list of the bytes that
can be read from some address on, and a pointer is an index into it. A string is the bytes from a
pointer up to the first NUL; a function that finds none reads past the end of the memory.
-/

namespace Ahos

/-! ## Searching -/

/-- `strchr`, in the bytes from the pointer `p` on. -/
def strchrFrom (c : UInt8) : List UInt8 → ℕ → Outcome (Option ℕ)
  | [], _ => .error .outOfBounds
  | b :: bytes, p =>
    if b = 0 then .ok none else if b = c then .ok (some p) else strchrFrom c bytes (p + 1)

/-- `strchr`: the first `c` in the string at `s`, if there is one. -/
def strchr (mem : List UInt8) (s : ℕ) (c : UInt8) : Outcome (Option ℕ) :=
  strchrFrom c (mem.drop s) s

/-- `strlen`, in the bytes from the pointer on. -/
def strlenFrom : List UInt8 → Outcome ℕ
  | [] => .error .outOfBounds
  | b :: bytes =>
    if b = 0 then .ok 0 else do
      let len ← strlenFrom bytes
      return len + 1

/-- `strlen`. -/
def strlen (mem : List UInt8) (s : ℕ) : Outcome ℕ := strlenFrom (mem.drop s)

/-- `strncpy`, from the bytes at the pointer on: the `n` bytes that it writes. -/
def strncpyFrom : ℕ → List UInt8 → Outcome (List UInt8)
  | 0, _ => .ok []
  | _ + 1, [] => .error .outOfBounds
  | n + 1, b :: bytes =>
    if b = 0 then .ok (List.replicate (n + 1) 0) else do
      let copy ← strncpyFrom n bytes
      return b :: copy

/-- `strncpy`. -/
def strncpy (mem : List UInt8) (src n : ℕ) : Outcome (List UInt8) := strncpyFrom n (mem.drop src)

/-- `strcmp` of the strings at the start of two pieces of memory. A `char` is signed. -/
def strcmp : List UInt8 → List UInt8 → Outcome ℤ
  | b₁ :: s₁, b₂ :: s₂ =>
    if b₁ ≠ 0 ∧ b₁ = b₂ then strcmp s₁ s₂
    else if b₁.toInt8 < b₂.toInt8 then .ok (-1)
    else if b₁.toInt8 > b₂.toInt8 then .ok 1
    else .ok 0
  | _, _ => .error .outOfBounds

/-! ## Hexadecimal digits -/

/-- The value of a hexadecimal digit. -/
def hexDigit (c : UInt8) : Option ℕ :=
  if 0x30 ≤ c ∧ c ≤ 0x39 then some (c.toNat - 0x30)
  else if 0x61 ≤ c ∧ c ≤ 0x66 then some (c.toNat - 0x61 + 10)
  else if 0x41 ≤ c ∧ c ≤ 0x46 then some (c.toNat - 0x41 + 10)
  else none

/-- `atoh`, from the bytes at the pointer on, with the value so far. -/
def atohFrom : ℕ → List UInt8 → Outcome ℕ
  | _, [] => .error .outOfBounds
  | res, c :: bytes =>
    if c = 0 then .ok res
    else
      let res := Word32.wrap (res <<< 4)
      match hexDigit c with
      | some digit => atohFrom (Word32.add res digit) bytes
      | none => panic "abort"

/-- `atoh`. -/
def atoh (mem : List UInt8) (nptr : ℕ) : Outcome ℕ := atohFrom 0 (mem.drop nptr)

/-- The number that a list of digits denotes, behind the value `res`. -/
def hexValueFrom (res : ℕ) (digits : List UInt8) : ℕ :=
  digits.foldl (fun value c => 16 * value + (hexDigit c).getD 0) res

/-- The number that a list of digits denotes. -/
def hexValue (digits : List UInt8) : ℕ := hexValueFrom 0 digits

/-! ## Specifications -/

section Strings

variable {c : UInt8} {w post : List UInt8}

theorem strchrFrom_found (hc : c ≠ 0) (hnul : 0 ∉ w) (hw : c ∉ w) (p : ℕ) :
    strchrFrom c (w ++ c :: post) p = .ok (some (p + w.length)) := by
  induction w generalizing p with
  | nil => simp [strchrFrom, hc]
  | cons b w ih =>
    rw [List.mem_cons, not_or] at hnul hw
    rw [List.cons_append, strchrFrom, if_neg (Ne.symm hnul.1), if_neg (Ne.symm hw.1),
      ih hnul.2 hw.2, List.length_cons]
    congr 2
    omega

theorem strchrFrom_missing (hnul : 0 ∉ w) (hw : c ∉ w) (p : ℕ) :
    strchrFrom c (w ++ 0 :: post) p = .ok none := by
  induction w generalizing p with
  | nil => simp [strchrFrom]
  | cons b w ih =>
    rw [List.mem_cons, not_or] at hnul hw
    rw [List.cons_append, strchrFrom, if_neg (Ne.symm hnul.1), if_neg (Ne.symm hw.1),
      ih hnul.2 hw.2]

theorem strlenFrom_eq (hnul : 0 ∉ w) : strlenFrom (w ++ 0 :: post) = .ok w.length := by
  induction w with
  | nil => simp [strlenFrom]
  | cons b w ih =>
    rw [List.mem_cons, not_or] at hnul
    rw [List.cons_append, strlenFrom, if_neg (Ne.symm hnul.1), ih hnul.2]
    rfl

theorem strncpyFrom_eq (hnul : 0 ∉ w) {n : ℕ} (hn : w.length ≤ n) :
    strncpyFrom n (w ++ 0 :: post) = .ok (w ++ List.replicate (n - w.length) 0) := by
  induction w generalizing n with
  | nil =>
    cases n with
    | zero => rfl
    | succ n => simp [strncpyFrom]
  | cons b w ih =>
    rw [List.mem_cons, not_or] at hnul
    rw [List.length_cons] at hn
    obtain ⟨n, rfl⟩ : ∃ m, n = m + 1 := ⟨n - 1, by omega⟩
    rw [List.cons_append, strncpyFrom, if_neg (Ne.symm hnul.1), ih hnul.2 (by omega)]
    simp

theorem strncpyFrom_length {n : ℕ} {bytes copy : List UInt8}
    (h : strncpyFrom n bytes = .ok copy) : copy.length = n := by
  induction n generalizing bytes copy with
  | zero =>
    obtain rfl := Except.ok.inj h
    rfl
  | succ n ih =>
    cases bytes with
    | nil => cases h
    | cons b bytes =>
      rw [strncpyFrom] at h
      split_ifs at h
      · obtain rfl := Except.ok.inj h
        simp
      · obtain ⟨rest, hrest, hcopy⟩ := Run.bind_eq_ok.mp h
        obtain rfl := Except.ok.inj hcopy
        simp [ih hrest]

theorem hexDigit_lt {digit : ℕ} (h : hexDigit c = some digit) : digit < 16 := by
  unfold hexDigit at h
  simp only [UInt8.le_iff_toNat_le] at h
  split_ifs at h with hdigit hlower hupper
  · obtain rfl := Option.some.inj h
    have hle := hdigit.2
    simp at hle
    omega
  · obtain rfl := Option.some.inj h
    have hle := hlower.2
    simp at hle
    omega
  · obtain rfl := Option.some.inj h
    have hle := hupper.2
    simp at hle
    omega

/-- **`atoh` returns the number** when it fits, for digits in either case. -/
theorem atohFrom_eq (hw : ∀ c ∈ w, (hexDigit c).isSome) {res : ℕ}
    (hfits : (res + 1) * 16 ^ w.length ≤ 4294967296) :
    atohFrom res (w ++ 0 :: post) = .ok (hexValueFrom res w) := by
  induction w generalizing res with
  | nil => simp [atohFrom, hexValueFrom]
  | cons c w ih =>
    obtain ⟨digit, hdigit⟩ := Option.isSome_iff_exists.mp (hw c List.mem_cons_self)
    have hlt := hexDigit_lt hdigit
    have hne : c ≠ 0 := by
      rintro rfl
      simp [hexDigit] at hdigit
    have hbound : (16 * res + digit + 1) * 16 ^ w.length ≤ 4294967296 := by
      calc (16 * res + digit + 1) * 16 ^ w.length
          ≤ (16 * (res + 1)) * 16 ^ w.length := Nat.mul_le_mul_right _ (by omega)
        _ = (res + 1) * 16 ^ (w.length + 1) := by ring
        _ ≤ 4294967296 := hfits
    have hsmall : 16 * res + digit + 1 ≤ 4294967296 :=
      (Nat.le_mul_of_pos_right _ (Nat.pow_pos (by norm_num))).trans hbound
    have hshift : Word32.wrap (res <<< 4) = 16 * res := by
      rw [Nat.shiftLeft_eq, Word32.wrap_of_lt (by omega)]
      ring
    simp only [List.cons_append, atohFrom, if_neg hne, hdigit, hshift]
    rw [Word32.add_of_lt (by omega), ih (fun c hc => hw c (List.mem_cons_of_mem _ hc)) hbound]
    simp [hexValueFrom, hdigit]

/-- Eight digits always fit. -/
theorem atohFrom_digits (hw : ∀ c ∈ w, (hexDigit c).isSome) (hlen : w.length ≤ 8) :
    atohFrom 0 (w ++ 0 :: post) = .ok (hexValue w) := by
  apply atohFrom_eq hw
  calc (0 + 1) * 16 ^ w.length ≤ 1 * 16 ^ 8 :=
        Nat.mul_le_mul_left _ (Nat.pow_le_pow_right (by norm_num) hlen)
    _ = 4294967296 := by norm_num

/-- The number has 32 bits in any case. -/
theorem atohFrom_lt {res value : ℕ} {bytes : List UInt8} (hres : res < 4294967296)
    (h : atohFrom res bytes = .ok value) : value < 4294967296 := by
  induction bytes generalizing res with
  | nil => cases h
  | cons c bytes ih =>
    rw [atohFrom] at h
    split_ifs at h
    · rwa [← Except.ok.inj h]
    · cases hdigit : hexDigit c with
      | none =>
        rw [hdigit] at h
        cases h
      | some digit =>
        rw [hdigit] at h
        exact ih (Word32.wrap_lt _) h

/-- A character that is not a digit is fatal. -/
theorem atohFrom_abort (hnul : 0 ∉ w) {res : ℕ} (hw : ¬ ∀ c ∈ w, (hexDigit c).isSome) :
    atohFrom res (w ++ 0 :: post) = panic "abort" := by
  induction w generalizing res with
  | nil => simp at hw
  | cons c w ih =>
    rw [List.mem_cons, not_or] at hnul
    rw [List.cons_append, atohFrom, if_neg (Ne.symm hnul.1)]
    cases hdigit : hexDigit c with
    | none => rfl
    | some digit =>
      apply ih hnul.2
      intro hrest
      apply hw
      intro b hb
      obtain rfl | hb := List.mem_cons.mp hb
      · rw [hdigit]
        rfl
      · exact hrest b hb

/-- Where two strings end or differ. -/
theorem strcmp_cons {b₁ b₂ : UInt8} {s₁ s₂ : List UInt8} (h : ¬(b₁ ≠ 0 ∧ b₁ = b₂)) :
    ∃ r, strcmp (b₁ :: s₁) (b₂ :: s₂) = .ok r ∧ (r = 0 ↔ b₁ = b₂) := by
  have hinj : b₁.toInt8.toInt = b₂.toInt8.toInt → b₁ = b₂ := fun heq => by
    simpa using congrArg Int8.toUInt8 (Int8.toInt_inj.mp heq)
  rw [strcmp, if_neg h]
  simp only [gt_iff_lt, Int8.lt_iff_toInt_lt]
  by_cases hlt : b₁.toInt8.toInt < b₂.toInt8.toInt
  · exact ⟨-1, by rw [if_pos hlt], iff_of_false (by decide) fun heq => by rw [heq] at hlt; omega⟩
  · by_cases hgt : b₂.toInt8.toInt < b₁.toInt8.toInt
    · exact ⟨1, by rw [if_neg hlt, if_pos hgt],
        iff_of_false (by decide) fun heq => by rw [heq] at hgt; omega⟩
    · exact ⟨0, by rw [if_neg hlt, if_neg hgt], iff_of_true rfl (hinj (by omega))⟩

/-- **`strcmp` returns zero for equal strings** and only for these. -/
theorem strcmp_eq_zero {s₁ s₂ post₁ post₂ : List UInt8} (h₁ : 0 ∉ s₁) (h₂ : 0 ∉ s₂) :
    ∃ r, strcmp (s₁ ++ 0 :: post₁) (s₂ ++ 0 :: post₂) = .ok r ∧ (r = 0 ↔ s₁ = s₂) := by
  induction s₁ generalizing s₂ with
  | nil =>
    cases s₂ with
    | nil => exact ⟨0, by simp [strcmp], by simp⟩
    | cons b₂ s₂ =>
      rw [List.mem_cons, not_or] at h₂
      obtain ⟨r, hr, hzero⟩ := @strcmp_cons 0 b₂ post₁ (s₂ ++ 0 :: post₂) (by simp)
      exact ⟨r, hr, by simp [hzero, h₂.1]⟩
  | cons b₁ s₁ ih =>
    rw [List.mem_cons, not_or] at h₁
    cases s₂ with
    | nil =>
      obtain ⟨r, hr, hzero⟩ := @strcmp_cons b₁ 0 (s₁ ++ 0 :: post₁) post₂
        (fun h => h₁.1 h.2.symm)
      exact ⟨r, hr, by simp [hzero, Ne.symm h₁.1]⟩
    | cons b₂ s₂ =>
      rw [List.mem_cons, not_or] at h₂
      by_cases heq : b₁ = b₂
      · obtain ⟨r, hr, hzero⟩ := ih h₁.2 h₂.2
        refine ⟨r, ?_, by simp [hzero, heq]⟩
        rw [List.cons_append, List.cons_append, strcmp, if_pos ⟨Ne.symm h₁.1, heq⟩, hr]
      · obtain ⟨r, hr, hzero⟩ := @strcmp_cons b₁ b₂ (s₁ ++ 0 :: post₁) (s₂ ++ 0 :: post₂)
          (fun h => heq h.2)
        exact ⟨r, hr, by simp [hzero, heq]⟩

end Strings

/-! ## Strings in arrays -/

/-- The string at the start of an array. -/
def cstring (bytes : List UInt8) : List UInt8 := bytes.takeWhile (· ≠ 0)

theorem cstring_append_zero (text rest : List UInt8) :
    cstring (text ++ 0 :: rest) = cstring text := by
  unfold cstring
  induction text with
  | nil => simp
  | cons c text ih =>
    rw [List.cons_append, List.takeWhile_cons, List.takeWhile_cons, ih]

theorem cstring_length_le (bytes : List UInt8) : (cstring bytes).length ≤ bytes.length :=
  (List.takeWhile_prefix _).length_le

theorem notMem_cstring (bytes : List UInt8) : 0 ∉ cstring bytes := by
  induction bytes with
  | nil => exact List.not_mem_nil
  | cons c bytes ih =>
    rw [cstring, List.takeWhile_cons]
    by_cases hc : c = 0
    · simp [hc]
    · rw [if_pos (by simpa using hc), List.mem_cons, not_or]
      exact ⟨Ne.symm hc, ih⟩

theorem exists_cstring {bytes : List UInt8} (h : 0 ∈ bytes) :
    ∃ rest, bytes = cstring bytes ++ 0 :: rest := by
  induction bytes with
  | nil => cases h
  | cons c bytes ih =>
    rw [cstring, List.takeWhile_cons]
    by_cases hc : c = 0
    · exact ⟨bytes, by simp [hc]⟩
    · obtain ⟨rest, hrest⟩ := ih (List.mem_of_ne_of_mem (Ne.symm hc) h)
      refine ⟨rest, ?_⟩
      rw [if_pos (by simpa using hc), List.cons_append]
      exact congrArg _ hrest

/-- `strcmp` of the strings in two arrays. -/
theorem strcmp_cstring {s₁ s₂ : List UInt8} (h₁ : 0 ∈ s₁) (h₂ : 0 ∈ s₂) :
    ∃ r, strcmp s₁ s₂ = .ok r ∧ (r = 0 ↔ cstring s₁ = cstring s₂) := by
  obtain ⟨post₁, hpost₁⟩ := exists_cstring h₁
  obtain ⟨post₂, hpost₂⟩ := exists_cstring h₂
  have hzero := @strcmp_eq_zero _ _ post₁ post₂ (notMem_cstring s₁) (notMem_cstring s₂)
  rwa [← hpost₁, ← hpost₂] at hzero

end Ahos
