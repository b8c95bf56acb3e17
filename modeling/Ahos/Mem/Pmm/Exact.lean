import Ahos.Mem.Pmm.Reserve

/-!
# Exact reservations

The loop of `reserve_region` searches the map again after every split. On any map it ends after two
splits at most. On a map that is sorted and ends below 4 GB it reserves the requested range exactly:
the entry around the range is replaced by up to three parts, and the types of all other addresses
stay as they are.
-/

namespace Ahos

/-! ## The retry loop -/

/-- The test of the search in `reserve_region`. -/
def PhysMmapEntry.Fits (e : PhysMmapEntry) (addr len : ℕ) : Prop :=
  e.type = .available ∧ e.addr ≤ addr ∧ Word32.add addr len ≤ e.endAddr

instance (e : PhysMmapEntry) (addr len : ℕ) : Decidable (e.Fits addr len) := by
  unfold PhysMmapEntry.Fits
  infer_instance

/-- The address at which `reserve_region` splits an entry. -/
def splitAddress (e : PhysMmapEntry) (addr len : ℕ) : ℕ :=
  if addr > e.addr then addr else Word32.add addr len

/-- One search of the loop of `reserve_region`: the result of the loop, or the map after a split,
which is searched again. -/
def reserveStep (pmm : PhysMmap) (addr len : ℕ) : (Bool × PhysMmap) ⊕ PhysMmap :=
  match findAvailable pmm addr len with
  | none => .inl (false, pmm)
  | some entry =>
    match pmm[entry]? with
    | none => .inl (false, pmm)
    | some pmme =>
      if pmme.len = len then .inl (true, pmm.set entry { pmme with type := .reserved })
      else
        match splitRegion pmm entry (splitAddress pmme addr len) with
        | none => .inl (false, pmm)
        | some pmm' => .inr pmm'

theorem reserveLoop_eq (pmm : PhysMmap) (addr len : ℕ) :
    reserveLoop pmm addr len =
      match reserveStep pmm addr len with
      | .inl r => r
      | .inr pmm' => reserveLoop pmm' addr len := by
  rw [reserveLoop, reserveStep]
  cases findAvailable pmm addr len with
  | none => rfl
  | some entry =>
    simp only
    cases pmm[entry]? with
    | none => rfl
    | some pmme =>
      simp only
      split
      · rfl
      · split
        · next hsplit => rw [splitAddress, hsplit]
        · next pmm' hsplit => rw [splitAddress, hsplit]

/-- The loop of `reserve_region` with a bound on the number of splits: `none` if it is not enough. -/
def reserveWithin (splits : ℕ) (pmm : PhysMmap) (addr len : ℕ) : Option (Bool × PhysMmap) :=
  match reserveStep pmm addr len with
  | .inl r => some r
  | .inr pmm' =>
    match splits with
    | 0 => none
    | splits + 1 => reserveWithin splits pmm' addr len

/-- With enough splits the bounded loop is the loop of `reserve_region`. -/
theorem reserveWithin_sound {splits : ℕ} {pmm : PhysMmap} {addr len : ℕ} {r : Bool × PhysMmap}
    (h : reserveWithin splits pmm addr len = some r) : reserveLoop pmm addr len = r := by
  induction splits generalizing pmm with
  | zero =>
    rw [reserveWithin] at h
    rw [reserveLoop_eq]
    cases hstep : reserveStep pmm addr len with
    | inl r' => simpa [hstep] using h
    | inr pmm' => simp [hstep] at h
  | succ splits ih =>
    rw [reserveWithin] at h
    rw [reserveLoop_eq]
    cases hstep : reserveStep pmm addr len with
    | inl r' => simpa [hstep] using h
    | inr pmm' =>
      rw [hstep] at h
      exact ih h

theorem reserveWithin_succ {splits : ℕ} {pmm : PhysMmap} {addr len : ℕ} {r : Bool × PhysMmap}
    (h : reserveWithin splits pmm addr len = some r) :
    reserveWithin (splits + 1) pmm addr len = some r := by
  induction splits generalizing pmm with
  | zero =>
    rw [reserveWithin] at h ⊢
    cases hstep : reserveStep pmm addr len with
    | inl r' => simpa [hstep] using h
    | inr pmm' => simp [hstep] at h
  | succ splits ih =>
    rw [reserveWithin] at h ⊢
    cases hstep : reserveStep pmm addr len with
    | inl r' => simpa [hstep] using h
    | inr pmm' =>
      rw [hstep] at h
      exact ih h

namespace PhysMmapEntry

/-- The part of an entry before a cut at `x`. -/
def left (e : PhysMmapEntry) (x : ℕ) : PhysMmapEntry := ⟨e.addr, x - e.addr, e.type⟩

/-- The part of an entry from a cut at `x` on. -/
def right (e : PhysMmapEntry) (x : ℕ) : PhysMmapEntry :=
  ⟨x, Word32.sub e.len (x - e.addr), e.type⟩

variable {e : PhysMmapEntry} {x : ℕ}

theorem endAddr_left (hlo : e.addr < x) (hx : x < 4294967296) : (e.left x).endAddr = x := by
  rw [endAddr, left, Word32.add_of_lt (by simp only; omega)]
  simp only
  omega

theorem endAddr_right (hlo : e.addr < x) : (e.right x).endAddr = e.endAddr :=
  endAddr_split_right hlo

theorem addr_add_len_right (hlo : e.addr ≤ x) (hhi : x ≤ e.addr + e.len)
    (hb : e.addr + e.len < 4294967296) :
    (e.right x).addr + (e.right x).len = e.addr + e.len := by
  rw [right, Word32.sub_of_le (by omega) (by omega)]
  simp only
  omega

end PhysMmapEntry

section Step

variable {l r : PhysMmap} {e : PhysMmapEntry} {addr len : ℕ}

theorem findAvailable_eq (pmm : PhysMmap) (addr len : ℕ) :
    findAvailable pmm addr len = pmm.findIdx? fun e => e.Fits addr len := by
  rw [findAvailable]
  congr

theorem findAvailable_append (hl : ∀ q ∈ l, ¬ q.Fits addr len) (he : e.Fits addr len) :
    findAvailable (l ++ e :: r) addr len = some l.length := by
  rw [findAvailable_eq, List.findIdx?_eq_some_iff_getElem]
  refine ⟨by simp, by simpa using he, fun j hj => ?_⟩
  rw [List.getElem_append_left hj]
  simpa using hl _ (List.getElem_mem hj)

theorem splitRegion_append (x : ℕ) :
    splitRegion (l ++ e :: r) l.length x =
      if x ≤ e.addr ∨ x ≥ e.endAddr then none else some (l ++ e.left x :: e.right x :: r) := by
  unfold splitRegion
  rw [List.getElem?_append_right le_rfl, Nat.sub_self, List.getElem?_cons_zero]
  simp only
  split_ifs with hx
  · rfl
  · obtain ⟨hsub, hleft⟩ := PhysMmapEntry.split_lengths (e := e) (x := x) (by omega) (by omega)
    simp [hsub, hleft, PhysMmapEntry.left, PhysMmapEntry.right]

/-- The search stops at the first entry that fits: it is reserved, or cut if it can be. -/
theorem reserveStep_append (hl : ∀ q ∈ l, ¬ q.Fits addr len) (he : e.Fits addr len) :
    reserveStep (l ++ e :: r) addr len =
      if e.len = len then .inl (true, l ++ { e with type := .reserved } :: r)
      else if splitAddress e addr len ≤ e.addr ∨ splitAddress e addr len ≥ e.endAddr then
        .inl (false, l ++ e :: r)
      else
        .inr (l ++ e.left (splitAddress e addr len) :: e.right (splitAddress e addr len) :: r) := by
  have hget : (l ++ e :: r)[l.length]? = some e := by simp
  simp only [reserveStep, findAvailable_append hl he, hget, splitRegion_append]
  split_ifs <;> simp

/-- Without an entry that fits, the map stays as it is. -/
theorem reserveStep_none {pmm : PhysMmap} (h : ∀ q ∈ pmm, ¬ q.Fits addr len) :
    reserveStep pmm addr len = .inl (false, pmm) := by
  have hfind : findAvailable pmm addr len = none := by
    rw [findAvailable_eq, List.findIdx?_eq_none_iff]
    intro q hq
    simpa using h q hq
  simp only [reserveStep, hfind]

/-- The first entry that fits, if there is one. -/
theorem exists_first_fit (pmm : PhysMmap) (addr len : ℕ) :
    (∀ q ∈ pmm, ¬ q.Fits addr len) ∨
      ∃ l e r, pmm = l ++ e :: r ∧ (∀ q ∈ l, ¬ q.Fits addr len) ∧ e.Fits addr len := by
  induction pmm with
  | nil => exact .inl (by simp)
  | cons e pmm ih =>
    by_cases he : e.Fits addr len
    · exact .inr ⟨[], e, pmm, rfl, by simp, he⟩
    · rcases ih with hnone | ⟨l, f, r, rfl, hl, hf⟩
      · exact .inl (by simpa using ⟨he, hnone⟩)
      · exact .inr ⟨e :: l, f, r, rfl, by simpa using ⟨he, hl⟩, hf⟩

/-- A part that already has the length of the range is reserved as a whole. -/
theorem reserveWithin_of_len (n : ℕ) (hl : ∀ q ∈ l, ¬ q.Fits addr len) (he : e.Fits addr len)
    (hlen : e.len = len) :
    reserveWithin n (l ++ e :: r) addr len =
      some (true, l ++ { e with type := .reserved } :: r) := by
  rw [reserveWithin.eq_def, reserveStep_append hl he, if_pos hlen]

/-- Nothing is reserved in an entry that cannot be cut. -/
theorem reserveWithin_of_stuck (n : ℕ) (hl : ∀ q ∈ l, ¬ q.Fits addr len) (he : e.Fits addr len)
    (hlen : e.len ≠ len)
    (hcut : splitAddress e addr len ≤ e.addr ∨ splitAddress e addr len ≥ e.endAddr) :
    reserveWithin n (l ++ e :: r) addr len = some (false, l ++ e :: r) := by
  rw [reserveWithin.eq_def, reserveStep_append hl he, if_neg hlen, if_pos hcut]

/-- Otherwise the entry is cut, and the search starts again. -/
theorem reserveWithin_of_cut (n : ℕ) (hl : ∀ q ∈ l, ¬ q.Fits addr len) (he : e.Fits addr len)
    (hlen : e.len ≠ len) (hlo : e.addr < splitAddress e addr len)
    (hhi : splitAddress e addr len < e.endAddr) :
    reserveWithin (n + 1) (l ++ e :: r) addr len =
      reserveWithin n
        (l ++ e.left (splitAddress e addr len) :: e.right (splitAddress e addr len) :: r)
        addr len := by
  rw [reserveWithin.eq_def, reserveStep_append hl he, if_neg hlen, if_neg (by omega)]

/-- The range ends above its start only if its end does not wrap. -/
theorem add_eq_of_lt (haddr : addr < 4294967296) (hlen : len < 4294967296)
    (h : addr < Word32.add addr len) : Word32.add addr len = addr + len := by
  unfold Word32.add Word32.wrap at *
  omega

/-- The part before the start of the range does not contain it. -/
theorem not_fits_append_left (hl : ∀ q ∈ l, ¬ q.Fits addr len) (hgt : e.addr < addr)
    (haddr : addr < 4294967296) (habove : addr < Word32.add addr len) :
    ∀ q ∈ l ++ [e.left addr], ¬ q.Fits addr len := by
  intro q hq
  rcases List.mem_append.mp hq with hq | hq
  · exact hl q hq
  · obtain rfl := List.mem_singleton.mp hq
    rintro ⟨-, -, hle⟩
    rw [PhysMmapEntry.endAddr_left hgt haddr] at hle
    omega

/-- A range that starts where its entry starts takes one split at most. -/
theorem reserveWithin_at_start (hl : ∀ q ∈ l, ¬ q.Fits addr len) (he : e.Fits addr len)
    (haddr : addr = e.addr) (hlt : addr < 4294967296) (hlen : len < 4294967296) :
    ∃ res, reserveWithin 1 (l ++ e :: r) addr len = some res ∧
      res.2.length ≤ (l ++ e :: r).length + 1 := by
  have hsplit : splitAddress e addr len = Word32.add addr len := if_neg (by omega)
  by_cases hfull : e.len = len
  · exact ⟨_, reserveWithin_of_len 1 hl he hfull, by simp⟩
  by_cases hcut : splitAddress e addr len ≤ e.addr ∨ splitAddress e addr len ≥ e.endAddr
  · exact ⟨_, reserveWithin_of_stuck 1 hl he hfull hcut, by simp⟩
  -- the left part is the range
  have hend := add_eq_of_lt hlt hlen (by omega)
  have hfit : (e.left (splitAddress e addr len)).Fits addr len := by
    refine ⟨he.1, he.2.1, ?_⟩
    rw [PhysMmapEntry.endAddr_left (by omega) (hsplit ▸ Word32.add_lt _ _), hsplit]
  have hleft : (e.left (splitAddress e addr len)).len = len := by
    rw [hsplit, hend, PhysMmapEntry.left]
    simp only
    omega
  rw [reserveWithin_of_cut 0 hl he hfull (by omega) (by omega)]
  refine ⟨_, reserveWithin_of_len 0 hl hfit hleft, ?_⟩
  simp only [List.length_append, List.length_cons]
  omega

/-- **The retry loop** of `reserve_region` ends after two splits at most, on every map and for
every 32-bit range. Each split adds one entry. -/
theorem reserveWithin_two (pmm : PhysMmap) (haddr : addr < 4294967296) (hlen : len < 4294967296) :
    ∃ res, reserveWithin 2 pmm addr len = some res ∧ res.2.length ≤ pmm.length + 2 := by
  rcases exists_first_fit pmm addr len with hnone | ⟨l, e, r, rfl, hl, he⟩
  · refine ⟨(false, pmm), ?_, by simp⟩
    rw [reserveWithin, reserveStep_none hnone]
  by_cases hstart : addr = e.addr
  · obtain ⟨res, hres, hle⟩ := reserveWithin_at_start (r := r) hl he hstart haddr hlen
    exact ⟨res, reserveWithin_succ hres, by omega⟩
  have hgt : e.addr < addr := lt_of_le_of_ne he.2.1 (Ne.symm hstart)
  have hsplit : splitAddress e addr len = addr := if_pos hgt
  by_cases hfull : e.len = len
  · exact ⟨_, reserveWithin_of_len 2 hl he hfull, by simp⟩
  by_cases hcut : addr ≤ e.addr ∨ addr ≥ e.endAddr
  · exact ⟨_, reserveWithin_of_stuck 2 hl he hfull (hsplit.symm ▸ hcut), by simp⟩
  rw [reserveWithin_of_cut 1 hl he hfull (by omega) (by omega), hsplit]
  have hlength : (l ++ e.left addr :: e.right addr :: r).length = (l ++ e :: r).length + 1 := by
    simp only [List.length_append, List.length_cons]
    omega
  by_cases hbelow : Word32.add addr len ≤ addr
  · -- the left part is found again, and cannot be cut at its end
    have hend : (e.left addr).endAddr = addr := PhysMmapEntry.endAddr_left hgt haddr
    have hfit : (e.left addr).Fits addr len := ⟨he.1, he.2.1, hend.symm ▸ hbelow⟩
    by_cases hleft : (e.left addr).len = len
    · refine ⟨_, reserveWithin_of_len 1 hl hfit hleft, ?_⟩
      rw [List.length_append, List.length_cons] at hlength ⊢
      omega
    · refine ⟨_, reserveWithin_of_stuck 1 hl hfit hleft (.inr ?_), hlength.trans_le (by omega)⟩
      rw [hend, splitAddress, if_pos (by exact hgt)]
  · -- the left part ends where the range starts
    have hl' := not_fits_append_left hl hgt haddr (by omega)
    have hfit : (e.right addr).Fits addr len :=
      ⟨he.1, le_rfl, by rw [PhysMmapEntry.endAddr_right hgt]; exact he.2.2⟩
    obtain ⟨res, hres, hle⟩ := reserveWithin_at_start (r := r) hl' hfit rfl haddr hlen
    rw [List.append_assoc, List.singleton_append] at hres hle
    exact ⟨res, hres, by omega⟩

end Step

/-- What one search preserves, the loop preserves. -/
theorem reserveLoop_invariant {P : PhysMmap → Prop} {addr len : ℕ}
    (hdone : ∀ pmm ok pmm', P pmm → reserveStep pmm addr len = .inl (ok, pmm') → P pmm')
    (hcut : ∀ pmm pmm', P pmm → reserveStep pmm addr len = .inr pmm' → P pmm')
    {pmm : PhysMmap} (h : P pmm) : P (reserveLoop pmm addr len).2 := by
  fun_induction reserveLoop pmm addr len with
  | case1 pmm hfind => exact h
  | case2 pmm entry hfind hget => exact h
  | case3 pmm entry hfind e hget hfull =>
    exact hdone pmm true _ h (by simp only [reserveStep, hfind, hget, if_pos hfull])
  | case4 pmm entry hfind e hget hfull x hsplit => exact h
  | case5 pmm entry hfind e hget hfull x pmm' hsplit ih =>
    have hsplit' : splitRegion pmm entry (splitAddress e addr len) = some pmm' := hsplit
    exact ih (hcut pmm pmm' h (by simp only [reserveStep, hfind, hget, if_neg hfull, hsplit']))

/-! ## Sorted maps below 4 GB -/

/-- A map whose entries are sorted, not empty, apart, and end below 4 GB. -/
structure SortedMap (pmm : PhysMmap) : Prop where
  sorted : pmm.Pairwise fun e f => e.addr ≤ f.addr
  nonempty : ∀ e ∈ pmm, 0 < e.len
  disjoint : pmm.Pairwise fun e f => Disjoint e.bytes f.bytes
  bounded : ∀ e ∈ pmm, e.addr + e.len < 4294967296

/-- The type of an address: that of the first entry around it. -/
def typeAt (pmm : PhysMmap) (x : ℕ) : Option MmapType :=
  (pmm.find? fun e => e.addr ≤ x ∧ x < e.addr + e.len).map PhysMmapEntry.type

theorem typeAt_cons (e : PhysMmapEntry) (pmm : PhysMmap) (x : ℕ) :
    typeAt (e :: pmm) x =
      if e.addr ≤ x ∧ x < e.addr + e.len then some e.type else typeAt pmm x := by
  unfold typeAt
  rw [List.find?_cons]
  split_ifs with h <;> simp [h]

theorem typeAt_append (l r : PhysMmap) (x : ℕ) :
    typeAt (l ++ r) x = (typeAt l x).or (typeAt r x) := by
  unfold typeAt
  rw [List.find?_append]
  cases l.find? _ <;> rfl

/-- The entries around the range when it is taken out of `e`: what is left before it, the range
itself, and what is left behind it. -/
def carve (e : PhysMmapEntry) (addr len : ℕ) : PhysMmap :=
  (if e.addr < addr then [⟨e.addr, addr - e.addr, e.type⟩] else []) ++
    ⟨addr, len, .reserved⟩ ::
      if addr + len < e.addr + e.len then
        [⟨addr + len, e.addr + e.len - (addr + len), e.type⟩]
      else []

section Carve

variable {l r : PhysMmap} {e : PhysMmapEntry} {addr len : ℕ}

theorem length_carve (e : PhysMmapEntry) (addr len : ℕ) : (carve e addr len).length ≤ 3 := by
  unfold carve
  split_ifs <;> simp

/-- Every part lies in the entry. -/
theorem mem_carve (hlo : e.addr ≤ addr) (hhi : addr + len ≤ e.addr + e.len) (hlen : 0 < len)
    {f : PhysMmapEntry} (hf : f ∈ carve e addr len) :
    0 < f.len ∧ e.addr ≤ f.addr ∧ f.addr + f.len ≤ e.addr + e.len := by
  simp only [carve, List.mem_append, List.mem_cons, List.mem_ite_nil_right,
    List.not_mem_nil, or_false] at hf
  rcases hf with ⟨hlt, rfl⟩ | rfl | ⟨hlt, rfl⟩ <;> simp only <;> omega

/-- The parts are in order, one behind the other. -/
theorem pairwise_carve (e : PhysMmapEntry) (addr len : ℕ) :
    (carve e addr len).Pairwise fun f g => f.addr + f.len ≤ g.addr := by
  unfold carve
  split_ifs with hb ha ha <;> simp <;> omega

/-- The types of the addresses in the entry, before and after. -/
theorem typeAt_carve (hlo : e.addr ≤ addr) (hhi : addr + len ≤ e.addr + e.len) (x : ℕ) :
    typeAt (carve e addr len) x =
      if addr ≤ x ∧ x < addr + len then some .reserved else typeAt [e] x := by
  have hnil : typeAt [] x = none := rfl
  by_cases hb : e.addr < addr <;> by_cases ha : addr + len < e.addr + e.len <;>
    simp only [carve, hb, ha, if_true, if_false, List.cons_append, List.nil_append, typeAt_cons,
      hnil] <;>
    split_ifs <;> first | rfl | omega

/-- A range behind the start of its entry is carved out of the right part. -/
theorem carve_right (hgt : e.addr < addr) (hin : addr ≤ e.addr + e.len)
    (hb : e.addr + e.len < 4294967296) :
    carve e addr len = e.left addr :: carve (e.right addr) addr len := by
  have hright := PhysMmapEntry.addr_add_len_right hgt.le (x := addr) (e := e) (by omega) hb
  unfold carve
  rw [hright, if_pos hgt, if_neg (c := (e.right addr).addr < addr) (lt_irrefl addr)]
  rfl

theorem reserveWithin_carve_start (hl : ∀ q ∈ l, ¬ q.Fits addr len) (he : e.type = .available)
    (haddr : addr = e.addr) (hhi : addr + len ≤ e.addr + e.len) (hlen : 0 < len)
    (hb : e.addr + e.len < 4294967296) :
    reserveWithin 1 (l ++ e :: r) addr len = some (true, l ++ carve e addr len ++ r) := by
  have hend : e.endAddr = e.addr + e.len := Word32.add_of_lt hb
  have hadd : Word32.add addr len = addr + len := Word32.add_of_lt (by omega)
  have hfit : e.Fits addr len := ⟨he, haddr.ge, by omega⟩
  by_cases hfull : e.len = len
  · rw [reserveWithin_of_len 1 hl hfit hfull, carve, if_neg (by omega), if_neg (by omega)]
    simp [haddr, hfull]
  · have hsplit : splitAddress e addr len = addr + len := by
      rw [splitAddress, if_neg (by omega), hadd]
    have hleft : (e.left (addr + len)).Fits addr len := by
      refine ⟨he, haddr.ge, ?_⟩
      rw [PhysMmapEntry.endAddr_left (by omega) (by omega), hadd]
    rw [reserveWithin_of_cut 0 hl hfit hfull (by omega) (by omega), hsplit,
      reserveWithin_of_len 0 hl hleft (by simp only [PhysMmapEntry.left]; omega), carve,
      if_neg (by omega), if_pos (by omega)]
    have hrest : Word32.sub e.len len = addr + e.len - (addr + len) := by
      rw [Word32.sub_of_le (by omega) (by omega)]
      omega
    simp [PhysMmapEntry.left, PhysMmapEntry.right, ← haddr, hrest]

/-- A range in the first entry that contains it is carved out of this entry. -/
theorem reserveWithin_carve (hl : ∀ q ∈ l, ¬ q.Fits addr len) (he : e.type = .available)
    (hlo : e.addr ≤ addr) (hhi : addr + len ≤ e.addr + e.len) (hlen : 0 < len)
    (hb : e.addr + e.len < 4294967296) :
    reserveWithin 2 (l ++ e :: r) addr len = some (true, l ++ carve e addr len ++ r) := by
  rcases hlo.eq_or_lt with haddr | hgt
  · exact reserveWithin_succ (reserveWithin_carve_start hl he haddr.symm hhi hlen hb)
  have hend : e.endAddr = e.addr + e.len := Word32.add_of_lt hb
  have hadd : Word32.add addr len = addr + len := Word32.add_of_lt (by omega)
  have hsplit : splitAddress e addr len = addr := if_pos hgt
  have hright := PhysMmapEntry.addr_add_len_right hgt.le (x := addr) (e := e) (by omega) hb
  rw [reserveWithin_of_cut 1 hl ⟨he, hlo, by omega⟩ (by omega) (by omega) (by omega), hsplit]
  have hstep := reserveWithin_carve_start (r := r) (e := e.right addr)
    (not_fits_append_left hl hgt (by omega) (by omega)) he rfl (by omega) hlen (by omega)
  rw [List.append_assoc, List.singleton_append] at hstep
  rw [hstep, carve_right hgt (by omega) hb]
  simp

end Carve

namespace SortedMap

variable {l r pmm : PhysMmap} {e : PhysMmapEntry} {addr len : ℕ}

/-- The entries of a sorted map lie one behind the other. -/
theorem apart (h : SortedMap pmm) : pmm.Pairwise fun e f => e.addr + e.len ≤ f.addr := by
  refine (List.Pairwise.and_mem.mp (h.sorted.and h.disjoint)).imp ?_
  rintro e f ⟨he, hf, hle, hd⟩
  have := h.nonempty e he
  have := h.nonempty f hf
  rw [disjoint_bytes_iff] at hd
  omega

theorem of_apart (hnonempty : ∀ e ∈ pmm, 0 < e.len)
    (hbounded : ∀ e ∈ pmm, e.addr + e.len < 4294967296)
    (hapart : pmm.Pairwise fun e f => e.addr + e.len ≤ f.addr) : SortedMap pmm where
  sorted := hapart.imp fun h => by omega
  nonempty := hnonempty
  disjoint := hapart.imp fun h => disjoint_bytes_iff.mpr (by omega)
  bounded := hbounded

theorem endAddr_eq (h : SortedMap pmm) (he : e ∈ pmm) : e.endAddr = e.addr + e.len :=
  Word32.add_of_lt (h.bounded e he)

/-- Taking a range out of an entry keeps the map sorted and apart. -/
theorem carve (h : SortedMap (l ++ e :: r)) (hlo : e.addr ≤ addr)
    (hhi : addr + len ≤ e.addr + e.len) (hlen : 0 < len) :
    SortedMap (l ++ carve e addr len ++ r) := by
  have hparts := fun f hf => mem_carve hlo hhi hlen (f := f) hf
  have hb := h.bounded e (by simp)
  obtain ⟨hl, her, hle⟩ := List.pairwise_append.mp h.apart
  obtain ⟨her, hr⟩ := List.pairwise_cons.mp her
  refine of_apart (fun f hf => ?_) (fun f hf => ?_) ?_
  · simp only [List.mem_append] at hf
    rcases hf with (hf | hf) | hf
    · exact h.nonempty f (by simp [hf])
    · exact (hparts f hf).1
    · exact h.nonempty f (by simp [hf])
  · simp only [List.mem_append] at hf
    rcases hf with (hf | hf) | hf
    · exact h.bounded f (by simp [hf])
    · exact (hparts f hf).2.2.trans_lt hb
    · exact h.bounded f (by simp [hf])
  · simp only [List.pairwise_append, List.mem_append]
    refine ⟨⟨hl, pairwise_carve e addr len, fun f hf g hg => ?_⟩, hr, ?_⟩
    · have := hle f hf e (List.mem_cons_self ..)
      have := (hparts g hg).2.1
      omega
    · rintro f (hf | hf) g hg
      · exact hle f hf g (List.mem_cons_of_mem _ hg)
      · have := her g hg
        have := (hparts f hf).2.2
        omega

/-- The addresses outside an entry keep their types when its parts take its place. -/
theorem typeAt_carve (h : SortedMap (l ++ e :: r)) (hlo : e.addr ≤ addr)
    (hhi : addr + len ≤ e.addr + e.len) (x : ℕ) :
    typeAt (l ++ Ahos.carve e addr len ++ r) x =
      if addr ≤ x ∧ x < addr + len then some .reserved else typeAt (l ++ e :: r) x := by
  have hbefore : addr ≤ x → x < addr + len → typeAt l x = none := by
    intro hx hx'
    unfold typeAt
    rw [Option.map_eq_none_iff, List.find?_eq_none]
    intro f hf
    have := (List.pairwise_append.mp h.apart).2.2 f hf e (List.mem_cons_self ..)
    rw [decide_eq_true_eq]
    omega
  rw [show l ++ e :: r = l ++ [e] ++ r by simp]
  simp only [typeAt_append, Ahos.typeAt_carve hlo hhi]
  split_ifs with hx
  · rw [hbefore hx.1 hx.2, Option.none_or, Option.some_or]
  · rfl

/-- The search finds the range exactly in an available entry around it. -/
theorem fits_iff (h : SortedMap pmm) (he : e ∈ pmm) (hend : addr + len < 4294967296) :
    e.Fits addr len ↔ e.type = .available ∧ e.addr ≤ addr ∧ addr + len ≤ e.addr + e.len := by
  rw [PhysMmapEntry.Fits, h.endAddr_eq he, Word32.add_of_lt hend]

/-- An empty range is never reserved. Its start may cut an entry in two. -/
theorem reserveLoop_empty (h : SortedMap pmm) (haddr : addr < 4294967296) :
    (reserveLoop pmm addr 0).1 = false ∧ ∀ x, typeAt (reserveLoop pmm addr 0).2 x = typeAt pmm x := by
  have hadd : Word32.add addr 0 = addr := Word32.add_of_lt haddr
  rcases exists_first_fit pmm addr 0 with hnone | ⟨l, e, r, rfl, hl, he⟩
  · rw [reserveLoop_eq, reserveStep_none hnone]
    exact ⟨rfl, fun x => rfl⟩
  have hpos : 0 < e.len := h.nonempty e (by simp)
  have hend := h.endAddr_eq (e := e) (by simp)
  have hsplit : splitAddress e addr 0 = addr := by
    unfold splitAddress
    rw [hadd, ite_self]
  by_cases hcut : addr ≤ e.addr ∨ addr ≥ e.endAddr
  · rw [reserveWithin_sound (reserveWithin_of_stuck 0 hl he (by omega) (hsplit.symm ▸ hcut))]
    exact ⟨rfl, fun x => rfl⟩
  · -- the left part is found again, and stays
    have hleft : (e.left addr).endAddr = addr := PhysMmapEntry.endAddr_left (by omega) haddr
    have hfit : (e.left addr).Fits addr 0 := ⟨he.1, he.2.1, by omega⟩
    have hstuck := reserveWithin_of_stuck (r := e.right addr :: r) 0 hl hfit
      (by simp only [PhysMmapEntry.left]; omega)
      (.inr (by rw [hleft, splitAddress, hadd, ite_self]))
    have hloop := reserveWithin_of_cut (r := r) 0 hl he (by omega) (by omega) (by omega)
    rw [hsplit, hstuck] at hloop
    rw [reserveWithin_sound hloop]
    refine ⟨rfl, fun x => ?_⟩
    have hrest : Word32.sub e.len (addr - e.addr) = e.addr + e.len - addr := by
      have := h.bounded e (by simp)
      rw [Word32.sub_of_le (by omega) (by omega)]
      omega
    simp only [typeAt_append, typeAt_cons, PhysMmapEntry.left, PhysMmapEntry.right, hrest]
    congr 1
    split_ifs <;> first | rfl | omega

end SortedMap

/-- A map after the reservation of a range: still sorted, with two entries more at most, and with
other types in the range only. -/
structure ReservedExactly (pmm pmm' : PhysMmap) (addr len : ℕ) : Prop where
  sorted : SortedMap pmm'
  length : pmm'.length ≤ pmm.length + 2
  types : ∀ x, typeAt pmm' x = if addr ≤ x ∧ x < addr + len then some .reserved else typeAt pmm x

/-- The loop of `reserve_region` on a sorted map: with two splits at most it reserves the range
exactly if it is available, and leaves the map alone otherwise. -/
theorem reserveWithin_exact {pmm : PhysMmap} {addr len : ℕ} (h : SortedMap pmm) (hlen : 0 < len)
    (hend : addr + len < 4294967296) :
    (∃ pmm', reserveWithin 2 pmm addr len = some (true, pmm') ∧
      Available pmm addr (addr + len) ∧ ReservedExactly pmm pmm' addr len) ∨
    (reserveWithin 2 pmm addr len = some (false, pmm) ∧ ¬ Available pmm addr (addr + len)) := by
  rcases exists_first_fit pmm addr len with hnone | ⟨l, e, r, rfl, hl, he⟩
  · refine .inr ⟨?_, ?_⟩
    · rw [reserveWithin, reserveStep_none hnone]
    · rintro ⟨e, he, hfit⟩
      exact hnone e he ((h.fits_iff he hend).mpr hfit)
  · have hmem : e ∈ l ++ e :: r := by simp
    obtain ⟨ht, hlo, hhi⟩ := (h.fits_iff hmem hend).mp he
    refine .inl ⟨_, reserveWithin_carve hl ht hlo hhi hlen (h.bounded e hmem),
      ⟨e, hmem, ht, hlo, hhi⟩, h.carve hlo hhi hlen, ?_, h.typeAt_carve hlo hhi⟩
    have := length_carve e addr len
    simp only [List.length_append, List.length_cons]
    omega

/-- **`reserve_region` changes exactly the requested range.** On a sorted map below 4 GB with
reservations left, the loop ends after two splits at most. It succeeds exactly if the range lies in
one available entry; then the addresses of the range become reserved and no other address changes
its type. A failure changes nothing, and an empty range is refused without a change of a type. -/
theorem reserve_region_exact (g : PhysMemMap) (addr len : ℕ) (hmap : SortedMap g.entries)
    (hres : g.nbReserved < maxReserved) (haddr : addr < 4294967296) :
    (0 < len → addr + len < 4294967296 →
      (∃ r, reserveWithin 2 g.entries addr len = some r ∧ (reserveRegion g addr len).1 = r.1 ∧
        (reserveRegion g addr len).2.entries = r.2) ∧
      ((reserveRegion g addr len).1 = true ↔ Available g.entries addr (addr + len)) ∧
      ((reserveRegion g addr len).1 = true →
        ReservedExactly g.entries (reserveRegion g addr len).2.entries addr len) ∧
      ((reserveRegion g addr len).1 = false → (reserveRegion g addr len).2 = g)) ∧
    (len = 0 → (reserveRegion g addr len).1 = false ∧
      ∀ x, typeAt (reserveRegion g addr len).2.entries x = typeAt g.entries x) := by
  have hnot : g.nbReserved ≠ maxReserved := hres.ne
  refine ⟨fun hlen hend => ?_, fun hlen => ?_⟩
  · rcases reserveWithin_exact hmap hlen hend with ⟨pmm', hrun, havail, hexact⟩ | ⟨hrun, havail⟩
    · have hregion : reserveRegion g addr len = (true, ⟨pmm', g.nbReserved + 1⟩) := by
        rw [reserveRegion_eq, if_neg hnot, reserveWithin_sound hrun]
        rfl
      rw [hregion]
      exact ⟨⟨_, hrun, rfl, rfl⟩, by simp [havail], fun _ => hexact, by simp⟩
    · have hregion : reserveRegion g addr len = (false, g) := by
        rw [reserveRegion_eq, if_neg hnot, reserveWithin_sound hrun]
        rfl
      rw [hregion]
      exact ⟨⟨_, hrun, rfl, rfl⟩, by simp [havail], by simp, fun _ => rfl⟩
  · subst hlen
    rw [reserveRegion_eq, if_neg hnot]
    exact hmap.reserveLoop_empty haddr

/-- The theorem at a range in the middle of an entry, which takes two splits. -/
theorem reserve_region_exact_middle :
    (reserveRegion ⟨[⟨0x100000, 0x400000, .available⟩], 0⟩ 0x200000 0x1000).1 = true ↔
      Available [⟨0x100000, 0x400000, .available⟩] 0x200000 (0x200000 + 0x1000) :=
  ((reserve_region_exact ⟨[⟨0x100000, 0x400000, .available⟩], 0⟩ 0x200000 0x1000
    ⟨by simp, by simp, by simp, by simp⟩ (by decide) (by omega)).1 (by omega)
      (by omega)).2.1

end Ahos
