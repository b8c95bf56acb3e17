import Ahos.Lib.Move

/-!
# Moving bytes

`memmove` of `libc`, on the whole address space. A pointer is a word of 32 bits, and a pointer
plus an offset wraps around. The ranges of the source and of the target may overlap in any way.

The loops are compared with the copy loops of `Move`, which read and write cells that are numbered
by the natural numbers: there is a byte in each of the first `2 ^ 32` cells and none above.
-/

namespace Ahos

/-- The byte at each address. -/
abbrev AddressSpace := UInt32 → UInt8

namespace AddressSpace

theorem toNat_add_of_lt {p k : UInt32} (h : p.toNat + k.toNat < 4294967296) :
    (p + k).toNat = p.toNat + k.toNat := by
  rw [UInt32.toNat_add, Nat.mod_eq_of_lt h]

theorem toNat_add_one {i size : UInt32} (h : i < size) : (i + 1).toNat = i.toNat + 1 := by
  have hi : i.toNat < size.toNat := UInt32.lt_iff_toNat_lt.mp h
  have hsize := size.toNat_lt
  apply toNat_add_of_lt
  rw [UInt32.toNat_one]
  omega

theorem toNat_sub_one {i : UInt32} (h : i ≠ 0) : (i - 1).toNat + 1 = i.toNat := by
  have hpos : i.toNat ≠ 0 := fun hzero => h (UInt32.toNat_inj.mp hzero)
  have hle : 1 ≤ i := UInt32.le_iff_toNat_le.mpr (Nat.one_le_iff_ne_zero.mpr hpos)
  rw [UInt32.toNat_sub_of_le _ _ hle, UInt32.toNat_one]
  omega

/-- The first loop of `memmove`, upwards from the counter `i`. -/
def memmoveUp (dst src size i : UInt32) (mem : AddressSpace) : AddressSpace :=
  if i < size then
    memmoveUp dst src size (i + 1) (Function.update mem (dst + i) (mem (src + i)))
  else mem
termination_by size.toNat - i.toNat
decreasing_by
  have hlt : i.toNat < size.toNat := UInt32.lt_iff_toNat_lt.mp ‹i < size›
  have := toNat_add_one ‹i < size›
  omega

/-- The second loop of `memmove`, downwards from the counter `i`. -/
def memmoveDown (dst src i : UInt32) (mem : AddressSpace) : AddressSpace :=
  if i ≠ 0 then
    memmoveDown dst src (i - 1) (Function.update mem (dst + (i - 1)) (mem (src + (i - 1))))
  else mem
termination_by i.toNat
decreasing_by
  have := toNat_sub_one ‹i ≠ 0›
  omega

/-- `memmove`: the pointer that it returns, and the memory. -/
def memmove (mem : AddressSpace) (dst src size : UInt32) : UInt32 × AddressSpace :=
  if dst < src then (dst, memmoveUp dst src size 0 mem)
  else (dst, memmoveDown dst src size mem)

/-! ## Numbered cells -/

/-- The cells of the memory. -/
def cells (mem : AddressSpace) (x : ℕ) : Option UInt8 :=
  if x < 4294967296 then some (mem (UInt32.ofNat x)) else none

variable {mem : AddressSpace} {dst src size i : UInt32}

@[simp] theorem cells_toNat (mem : AddressSpace) (p : UInt32) :
    mem.cells p.toNat = some (mem p) := by
  rw [cells, if_pos p.toNat_lt, UInt32.ofNat_toNat]

/-- Writing a byte writes one cell. -/
theorem cells_update (mem : AddressSpace) (p : UInt32) (b : UInt8) :
    cells (Function.update mem p b) = Function.update mem.cells p.toNat (some b) := by
  funext x
  by_cases hx : x < 4294967296
  · obtain ⟨q, rfl⟩ : ∃ q : UInt32, x = q.toNat :=
      ⟨UInt32.ofNat x, (UInt32.toNat_ofNat_of_lt hx).symm⟩
    by_cases hq : q = p
    · subst hq
      rw [cells_toNat, Function.update_self, Function.update_self]
    · have hne : q.toNat ≠ p.toNat := fun h => hq (UInt32.toNat_inj.mp h)
      rw [cells_toNat, Function.update_of_ne hq, Function.update_of_ne hne, cells_toNat]
  · have hne : x ≠ p.toNat := fun h => hx (h ▸ p.toNat_lt)
    rw [Function.update_of_ne hne, cells, cells, if_neg hx, if_neg hx]

/-- A round of the loops is a round of the loops of `Move`. -/
theorem cells_copy (hdst : dst.toNat + i.toNat < 4294967296)
    (hsrc : src.toNat + i.toNat < 4294967296) :
    cells (Function.update mem (dst + i) (mem (src + i))) =
      Move.copyCell dst.toNat src.toNat mem.cells i.toNat := by
  rw [cells_update, toNat_add_of_lt hdst, Move.copyCell, ← toNat_add_of_lt hsrc, cells_toNat]

/-! ## The loops -/

/-- The first loop makes the rounds from its counter on. -/
theorem cells_memmoveUp (hdst : dst.toNat + size.toNat ≤ 4294967296)
    (hsrc : src.toNat + size.toNat ≤ 4294967296) :
    cells (memmoveUp dst src size i mem) =
      (List.range' i.toNat (size.toNat - i.toNat)).foldl (Move.copyCell dst.toNat src.toNat)
        mem.cells := by
  induction i, mem using memmoveUp.induct dst src size with
  | case1 i mem hlt ih =>
    have hi : i.toNat < size.toNat := UInt32.lt_iff_toNat_lt.mp hlt
    have hrounds : size.toNat - i.toNat = size.toNat - (i.toNat + 1) + 1 := by omega
    rw [memmoveUp, if_pos hlt, ih, toNat_add_one hlt, hrounds, List.range'_succ, List.foldl_cons,
      cells_copy (by omega) (by omega)]
  | case2 i mem hge =>
    have hi : size.toNat ≤ i.toNat := by
      rw [UInt32.lt_iff_toNat_lt] at hge
      omega
    rw [memmoveUp, if_neg hge, Nat.sub_eq_zero_of_le hi]
    rfl

/-- The second loop makes the rounds below its counter, the last one first. -/
theorem cells_memmoveDown (hdst : dst.toNat + i.toNat ≤ 4294967296)
    (hsrc : src.toNat + i.toNat ≤ 4294967296) :
    cells (memmoveDown dst src i mem) =
      (List.range i.toNat).reverse.foldl (Move.copyCell dst.toNat src.toNat) mem.cells := by
  induction i, mem using memmoveDown.induct dst src with
  | case1 i mem hne ih =>
    have hi : i.toNat = (i - 1).toNat + 1 := (toNat_sub_one hne).symm
    rw [memmoveDown, if_pos hne, ih (by omega) (by omega), hi, List.range_succ,
      List.reverse_append, List.reverse_singleton, List.singleton_append, List.foldl_cons,
      cells_copy (by omega) (by omega)]
  | case2 i mem hzero =>
    rw [not_not] at hzero
    subst hzero
    rw [memmoveDown, if_neg (not_not.mpr rfl)]
    rfl

/-- **All bytes are moved** as if they were read first. -/
theorem cells_memmove (hdst : dst.toNat + size.toNat ≤ 4294967296)
    (hsrc : src.toNat + size.toNat ≤ 4294967296) :
    cells (mem.memmove dst src size).2 =
      Move.moved mem.cells dst.toNat src.toNat size.toNat := by
  unfold memmove
  split_ifs with hlt
  · have hle : dst.toNat ≤ src.toNat := Nat.le_of_lt (UInt32.lt_iff_toNat_lt.mp hlt)
    rw [cells_memmoveUp hdst hsrc, ← Move.copyUp_eq hle, List.range_eq_range']
    rfl
  · have hle : src.toNat ≤ dst.toNat := UInt32.le_iff_toNat_le.mp (UInt32.not_lt.mp hlt)
    rw [cells_memmoveDown hdst hsrc, Move.copyDown_eq hle]

/-- Moving inside the part of the memory from `p` on. -/
theorem cells_memmove_offset {p d s n : ℕ} (hdst : p + d + n < 4294967296)
    (hsrc : p + s + n < 4294967296) (x : ℕ) :
    cells (mem.memmove (UInt32.ofNat (p + d)) (UInt32.ofNat (p + s)) (UInt32.ofNat n)).2 (p + x) =
      Move.moved (fun y => mem.cells (p + y)) d s n x := by
  have hword : ∀ k < 4294967296, (UInt32.ofNat k).toNat = k := fun k hk =>
    UInt32.toNat_ofNat_of_lt hk
  have hd := hword (p + d) (by omega)
  have hs := hword (p + s) (by omega)
  have hn := hword n (by omega)
  rw [cells_memmove (by omega) (by omega), hd, hs, hn, Move.moved_offset]

/-- Nothing is moved if there are no bytes to move. -/
theorem memmove_zero (mem : AddressSpace) (dst src : UInt32) :
    mem.memmove dst src 0 = (dst, mem) := by
  rw [memmove, memmoveUp, if_neg (UInt32.lt_irrefl 0), memmoveDown, if_neg (not_not.mpr rfl),
    ite_self]

/-- `memmove` with any overlap of two ranges that do not wrap around: the bytes of the source are
moved to the target, and no other byte is changed. -/
theorem memmove_moves (mem : AddressSpace) (dst src size : UInt32)
    (hdst : dst.toNat + size.toNat ≤ 4294967296) (hsrc : src.toNat + size.toNat ≤ 4294967296) :
    (mem.memmove dst src size).1 = dst ∧
      (∀ i < size, (mem.memmove dst src size).2 (dst + i) = mem (src + i)) ∧
        ∀ p, p < dst ∨ dst.toNat + size.toNat ≤ p.toNat →
          (mem.memmove dst src size).2 p = mem p := by
  refine ⟨?_, fun i hi => ?_, fun p hp => ?_⟩
  · unfold memmove
    split_ifs <;> rfl
  · rw [UInt32.lt_iff_toNat_lt] at hi
    apply Option.some.inj
    rw [← cells_toNat, cells_memmove hdst hsrc, toNat_add_of_lt (by omega), Move.moved_add hi,
      ← toNat_add_of_lt (by omega), cells_toNat]
  · rw [UInt32.lt_iff_toNat_lt] at hp
    apply Option.some.inj
    rw [← cells_toNat, cells_memmove hdst hsrc, Move.moved_of_outside (by omega), cells_toNat]

/-- Two entries of twelve bytes, one entry up and one entry down again. -/
theorem memmove_moves_entries :
    ((memmove UInt32.toUInt8 0x1010 0x1004 24).2 (0x1010 + 15) = 0x13 ∧
      (memmove UInt32.toUInt8 0x1010 0x1004 24).2 0x1004 = 0x04) ∧
    (memmove UInt32.toUInt8 0x1004 0x1010 24).2 (0x1004 + 15) = 0x1f ∧
      (memmove UInt32.toUInt8 0x1004 0x1010 24).2 0x101c = 0x1c := by
  have hup := memmove_moves UInt32.toUInt8 0x1010 0x1004 24 (by decide) (by decide)
  have hdown := memmove_moves UInt32.toUInt8 0x1004 0x1010 24 (by decide) (by decide)
  exact ⟨⟨hup.2.1 15 (by decide), hup.2.2 0x1004 (by decide)⟩, hdown.2.1 15 (by decide),
    hdown.2.2 0x101c (by decide)⟩

end AddressSpace

end Ahos
