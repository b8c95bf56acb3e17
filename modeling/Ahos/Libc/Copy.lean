import Ahos.Libc.Memmove
import Mathlib.Data.Int.Notation
import Mathlib.Data.Nat.Find

/-!
# Copying upwards

`memcpy`, `memcmp` and `strcpy` of `libc`, on the whole address space. `memcpy` and `strcpy` go
upwards whatever the distance from the source to the target is, so what they do depends on this
distance alone: a target a little above the source is written before the source there is read.
-/

namespace Ahos

namespace AddressSpace

/-! ## The functions -/

/-- `memcpy`: the pointer that it returns, and the memory. The loop is that of `memmove` for a
target below the source. -/
def memcpy (mem : AddressSpace) (dst src size : UInt32) : UInt32 × AddressSpace :=
  (dst, memmoveUp dst src size 0 mem)

/-- The loop of `memcmp` from the counter `i`. -/
def memcmpFrom (mem : AddressSpace) (a b size i : UInt32) : ℤ :=
  if i < size then
    if mem (a + i) < mem (b + i) then -1
    else if mem (b + i) < mem (a + i) then 1
    else memcmpFrom mem a b size (i + 1)
  else 0
termination_by size.toNat - i.toNat
decreasing_by
  have hlt : i.toNat < size.toNat := UInt32.lt_iff_toNat_lt.mp ‹i < size›
  have := toNat_add_one ‹i < size›
  omega

/-- `memcmp`. -/
def memcmp (mem : AddressSpace) (a b size : UInt32) : ℤ := memcmpFrom mem a b size 0

/-- The loop of `strcpy` and the byte behind it, in so many rounds at most. -/
def strcpyLoop : ℕ → UInt32 → UInt32 → AddressSpace → Option AddressSpace
  | 0, _, _, _ => none
  | rounds + 1, ptr, src, mem =>
    if mem src = 0 then some (Function.update mem ptr 0)
    else strcpyLoop rounds (ptr + 1) (src + 1) (Function.update mem ptr (mem src))

/-- `strcpy`: the pointer that it returns, and the memory, unless it needs more rounds. -/
def strcpy (rounds : ℕ) (mem : AddressSpace) (dest src : UInt32) :
    Option (UInt32 × AddressSpace) := (strcpyLoop rounds dest src mem).map (dest, ·)

/-! ## Distances and counters -/

theorem sub_lt_self_iff {i d : UInt32} : i - d < i ↔ d ≠ 0 ∧ d ≤ i := by
  have hi := i.toNat_lt
  have hd := d.toNat_lt
  rw [UInt32.lt_iff_toNat_lt, UInt32.le_iff_toNat_le, UInt32.toNat_sub, ne_eq, ← UInt32.toNat_inj,
    UInt32.toNat_zero]
  omega

theorem sub_mod_self {i d : UInt32} (h : d ≤ i) : (i - d) % d = i % d := by
  rw [← UInt32.toNat_inj, UInt32.toNat_mod, UInt32.toNat_mod, UInt32.toNat_sub_of_le _ _ h]
  exact (Nat.mod_eq_sub_mod (UInt32.le_iff_toNat_le.mp h)).symm

theorem mod_eq_self {i d : UInt32} (h : ¬(d ≠ 0 ∧ d ≤ i)) : i % d = i := by
  by_cases hd : d = 0
  · rw [hd, UInt32.mod_zero]
  · rw [← UInt32.toNat_inj, UInt32.toNat_mod]
    exact Nat.mod_eq_of_lt (Nat.lt_of_not_le fun hle => h ⟨hd, UInt32.le_iff_toNat_le.mpr hle⟩)

theorem sub_one_lt {n : UInt32} (h : n ≠ 0) : n - 1 < n := by
  have hpred := toNat_sub_one h
  exact UInt32.lt_iff_toNat_lt.mpr (by omega)

theorem one_add_lt {i n : UInt32} (hn : n ≠ 0) (h : i < n - 1) : 1 + i < n := by
  have hpred := toNat_sub_one hn
  have hlt := UInt32.lt_iff_toNat_lt.mp h
  have hnext := toNat_add_one (UInt32.lt_trans h (sub_one_lt hn))
  rw [UInt32.add_comm]
  exact UInt32.lt_iff_toNat_lt.mpr (by omega)

theorem sub_one_le_sub_one_iff {x n : UInt32} (hn : n ≠ 0) : x - 1 ≤ n - 1 ↔ x ≠ 0 ∧ x ≤ n := by
  have hpred := toNat_sub_one hn
  have hx := x.toNat_lt
  have hlt := n.toNat_lt
  rw [UInt32.le_iff_toNat_le, UInt32.le_iff_toNat_le, UInt32.toNat_sub, ne_eq, ← UInt32.toNat_inj,
    UInt32.toNat_zero, UInt32.toNat_one]
  omega

/-- A loop that counts up to `size`. -/
theorem counter_induction {size : UInt32} {P : UInt32 → Prop} (hlast : P size)
    (hstep : ∀ i < size, P (i + 1) → P i) {i : UInt32} (hi : i ≤ size) : P i := by
  obtain ⟨n, hn⟩ : ∃ n, size.toNat - i.toNat = n := ⟨_, rfl⟩
  induction n generalizing i with
  | zero =>
    have hsize : i = size := by
      have hle := UInt32.le_iff_toNat_le.mp hi
      exact UInt32.toNat_inj.mp (by omega)
    rwa [hsize]
  | succ n ih =>
    have hlt : i < size := UInt32.lt_iff_toNat_lt.mpr (by omega)
    have hnext := toNat_add_one hlt
    exact hstep i hlt (ih (by grind) (by omega))

/-! ## Copies of a range -/

/-- The memory with the first `n` bytes of the source in the target, as often as the distance
repeats them. -/
def copied (mem : AddressSpace) (dst src n : UInt32) : AddressSpace := fun a =>
  if a - dst < n then mem (src + (a - dst) % (dst - src)) else mem a

section Memcpy

variable {mem : AddressSpace} {dst src size i : UInt32}

theorem copied_zero : copied mem dst src 0 = mem := by
  funext a
  exact if_neg UInt32.not_lt_zero

/-- What the loop reads next has been written already if the distance is short. -/
theorem copied_read : copied mem dst src i (src + i) = mem (src + i % (dst - src)) := by
  have hdist : src + i - dst = i - (dst - src) := by grind
  rw [copied, hdist]
  by_cases hback : i - (dst - src) < i
  · rw [if_pos hback, sub_mod_self (sub_lt_self_iff.mp hback).2]
  · rw [if_neg hback, mod_eq_self fun h => hback (sub_lt_self_iff.mpr h)]

theorem copied_step (hi : i < size) :
    Function.update (copied mem dst src i) (dst + i) (copied mem dst src i (src + i)) =
      copied mem dst src (i + 1) := by
  rw [copied_read]
  funext a
  by_cases ha : a = dst + i
  · subst ha
    have hlast : dst + i - dst = i := by grind
    rw [Function.update_self, copied, hlast, if_pos (by grind)]
  · rw [Function.update_of_ne ha, copied, copied]
    by_cases hlt : a - dst < i
    · rw [if_pos hlt, if_pos (by grind)]
    · rw [if_neg hlt, if_neg (by grind)]

theorem memmoveUp_copied (hi : i ≤ size) :
    memmoveUp dst src size i (copied mem dst src i) = copied mem dst src size := by
  refine counter_induction (P := fun i =>
    memmoveUp dst src size i (copied mem dst src i) = copied mem dst src size) ?_ ?_ hi
  · rw [memmoveUp, if_neg (UInt32.lt_irrefl size)]
  · intro i hlt ih
    rw [memmoveUp, if_pos hlt, copied_step hlt, ih]

theorem memcpy_eq (mem : AddressSpace) (dst src size : UInt32) :
    memcpy mem dst src size = (dst, copied mem dst src size) := by
  have hcopy : memmoveUp dst src size 0 (copied mem dst src 0) = copied mem dst src size :=
    memmoveUp_copied UInt32.zero_le
  rw [copied_zero] at hcopy
  rw [memcpy, hcopy]

/-- **`memcpy` on any ranges**, also those that overlap: the bytes from the source to the target are
repeated, and nothing else changes. -/
theorem memcpy_repeats (mem : AddressSpace) (dst src size : UInt32) :
    (memcpy mem dst src size).1 = dst ∧
      (∀ i < size, (memcpy mem dst src size).2 (dst + i) = mem (src + i % (dst - src))) ∧
      ∀ a, (∀ i < size, a ≠ dst + i) → (memcpy mem dst src size).2 a = mem a := by
  rw [memcpy_eq]
  refine ⟨rfl, fun i hi => ?_, fun a ha => ?_⟩
  · have hwritten : dst + i - dst = i := by grind
    simp only [copied]
    rw [hwritten, if_pos hi]
  · refine if_neg fun hlt => ha (a - dst) hlt ?_
    grind

end Memcpy

/-! ## The comparison of ranges -/

section Memcmp

variable {mem : AddressSpace} {a b size i : UInt32}

theorem memcmpFrom_spec (hi : i ≤ size) (hbefore : ∀ j < i, mem (a + j) = mem (b + j)) :
    (memcmpFrom mem a b size i = 0 ∧ ∀ j < size, mem (a + j) = mem (b + j)) ∨
      ∃ k < size, (∀ j < k, mem (a + j) = mem (b + j)) ∧
        (mem (a + k) < mem (b + k) ∧ memcmpFrom mem a b size i = -1 ∨
          mem (b + k) < mem (a + k) ∧ memcmpFrom mem a b size i = 1) := by
  revert hbefore
  refine counter_induction (P := fun i => (∀ j < i, mem (a + j) = mem (b + j)) →
    (memcmpFrom mem a b size i = 0 ∧ ∀ j < size, mem (a + j) = mem (b + j)) ∨
      ∃ k < size, (∀ j < k, mem (a + j) = mem (b + j)) ∧
        (mem (a + k) < mem (b + k) ∧ memcmpFrom mem a b size i = -1 ∨
          mem (b + k) < mem (a + k) ∧ memcmpFrom mem a b size i = 1)) ?_ ?_ hi
  · intro hbefore
    exact .inl ⟨by rw [memcmpFrom, if_neg (UInt32.lt_irrefl size)], hbefore⟩
  · intro i hlt ih hbefore
    rw [memcmpFrom, if_pos hlt]
    by_cases hless : mem (a + i) < mem (b + i)
    · exact .inr ⟨i, hlt, hbefore, .inl ⟨hless, if_pos hless⟩⟩
    rw [if_neg hless]
    by_cases hmore : mem (b + i) < mem (a + i)
    · exact .inr ⟨i, hlt, hbefore, .inr ⟨hmore, if_pos hmore⟩⟩
    rw [if_neg hmore]
    have hsame : mem (a + i) = mem (b + i) := by grind
    refine ih fun j hj => ?_
    obtain hj | rfl : j < i ∨ j = i := by grind
    · exact hbefore j hj
    · exact hsame

/-- **`memcmp` finds the first difference**, if there is one, and tells which byte is less. -/
theorem memcmp_spec (mem : AddressSpace) (a b size : UInt32) :
    (memcmp mem a b size = 0 ∧ ∀ j < size, mem (a + j) = mem (b + j)) ∨
      ∃ k < size, (∀ j < k, mem (a + j) = mem (b + j)) ∧
        (mem (a + k) < mem (b + k) ∧ memcmp mem a b size = -1 ∨
          mem (b + k) < mem (a + k) ∧ memcmp mem a b size = 1) :=
  memcmpFrom_spec UInt32.zero_le fun _ hj => absurd hj UInt32.not_lt_zero

/-- What `memcpy` has copied to a range apart from the source compares as equal. -/
theorem memcmp_memcpy {dst src : UInt32} (hto : size ≤ dst - src) (hfrom : size ≤ src - dst) :
    memcmp (memcpy mem dst src size).2 dst src size = 0 := by
  have hsame : ∀ j < size,
      (memcpy mem dst src size).2 (dst + j) = (memcpy mem dst src size).2 (src + j) := by
    intro j hj
    have hwritten : dst + j - dst = j := by grind
    have hread : ¬src + j - dst < size := by
      have hto := UInt32.le_iff_toNat_le.mp hto
      have hfrom := UInt32.le_iff_toNat_le.mp hfrom
      have hj := UInt32.lt_iff_toNat_lt.mp hj
      have hdst := dst.toNat_lt
      have hsrc := src.toNat_lt
      rw [UInt32.toNat_sub] at hto hfrom
      rw [UInt32.lt_iff_toNat_lt, UInt32.toNat_sub, UInt32.toNat_add]
      omega
    have hmod : j % (dst - src) = j := mod_eq_self fun h => by grind
    rw [memcpy_eq]
    simp only [copied]
    rw [hwritten, if_pos hj, if_neg hread, hmod]
  obtain ⟨hzero, -⟩ | ⟨k, hk, -, ⟨hless, -⟩ | ⟨hmore, -⟩⟩ :=
    memcmp_spec (memcpy mem dst src size).2 dst src size
  · exact hzero
  · rw [hsame k hk] at hless
    exact absurd hless (UInt8.lt_irrefl _)
  · rw [hsame k hk] at hmore
    exact absurd hmore (UInt8.lt_irrefl _)

/-- Three bytes move from the end of the address space to its start. -/
theorem memcmp_memcpy_wrapping :
    memcmp (memcpy (fun a => a.toUInt8) 2 0xfffffffe 3).2 2 0xfffffffe 3 = 0 :=
  memcmp_memcpy (by decide) (by decide)

end Memcmp

/-! ## Strings -/

/-- There is a string of `len` bytes at `src`. -/
structure StringAt (mem : AddressSpace) (src len : UInt32) : Prop where
  nonzero : ∀ i < len, mem (src + i) ≠ 0
  zero : mem (src + len) = 0

section Strcpy

variable {mem : AddressSpace} {ptr src len : UInt32}

/-- The bytes from the source to the target are not zero. -/
def NoZeroBetween (mem : AddressSpace) (src ptr : UInt32) : Prop :=
  ∀ i < ptr - src, mem (src + i) ≠ 0

/-- A round writes the byte that closes the gap behind the one that it leaves. -/
theorem NoZeroBetween.round (h : NoZeroBetween mem src ptr) (hne : ptr ≠ src) :
    mem src ≠ 0 ∧
      NoZeroBetween (Function.update mem ptr (mem src)) (src + 1) (ptr + 1) := by
  have hsrc : mem src ≠ 0 := by
    have hfirst := h 0 (by grind)
    rwa [UInt32.add_zero] at hfirst
  refine ⟨hsrc, fun i hi => ?_⟩
  by_cases hlast : src + 1 + i = ptr
  · rw [hlast, Function.update_self]
    exact hsrc
  · rw [Function.update_of_ne hlast, UInt32.add_assoc]
    exact h _ (by grind)

theorem strcpyLoop_endless (h : NoZeroBetween mem src ptr) (hne : ptr ≠ src) (rounds : ℕ) :
    strcpyLoop rounds ptr src mem = none := by
  induction rounds generalizing mem src ptr with
  | zero => rfl
  | succ rounds ih =>
    obtain ⟨hsrc, hround⟩ := h.round hne
    rw [strcpyLoop, if_neg hsrc]
    exact ih hround (by grind)

/-- The memory with the string and its end in the target. -/
def copyString (mem : AddressSpace) (dest src len : UInt32) : AddressSpace := fun a =>
  if a - dest ≤ len then mem (src + (a - dest)) else mem a

theorem StringAt.copyString (h : StringAt mem src len) (dest : UInt32) :
    StringAt (copyString mem dest src len) dest len := by
  have hread : ∀ i ≤ len, AddressSpace.copyString mem dest src len (dest + i) = mem (src + i) := by
    intro i hi
    have hdist : dest + i - dest = i := by grind
    rw [AddressSpace.copyString, hdist, if_pos hi]
  refine ⟨fun i hi => ?_, ?_⟩
  · rw [hread i (by grind)]
    exact h.nonzero i hi
  · rw [hread len (by grind)]
    exact h.zero

/-- A round leaves the rest of the string alone. -/
theorem StringAt.round (h : StringAt mem src len) (hlen : len ≠ 0)
    (hdist : ptr = src ∨ len < ptr - src) :
    (∀ i < len, Function.update mem ptr (mem src) (src + 1 + i) = mem (src + 1 + i)) ∧
      StringAt (Function.update mem ptr (mem src)) (src + 1) (len - 1) := by
  have hkeep : ∀ i < len, Function.update mem ptr (mem src) (src + 1 + i) = mem (src + 1 + i) := by
    intro i hi
    refine Function.update_of_ne (fun heq => ?_) _ _
    have hgap : ptr - src = i + 1 := by rw [← heq]; grind
    have hnext := toNat_add_one hi
    have hlt := UInt32.lt_iff_toNat_lt.mp hi
    rcases hdist with hsame | hfar
    · have hzero : i + 1 = 0 := by rw [← hgap, hsame, UInt32.sub_self]
      rw [hzero, UInt32.toNat_zero] at hnext
      omega
    · rw [hgap] at hfar
      have hfar := UInt32.lt_iff_toNat_lt.mp hfar
      omega
  refine ⟨hkeep, fun i hi => ?_, ?_⟩
  · rw [hkeep i (UInt32.lt_trans hi (sub_one_lt hlen)), UInt32.add_assoc]
    exact h.nonzero (1 + i) (one_add_lt hlen hi)
  · have hend : src + 1 + (len - 1) = src + len := by grind
    rw [hkeep (len - 1) (sub_one_lt hlen), hend]
    exact h.zero

theorem copyString_zero (h : mem src = 0) :
    copyString mem ptr src 0 = Function.update mem ptr 0 := by
  funext a
  rw [copyString, Function.update_apply]
  by_cases ha : a = ptr
  · rw [ha, UInt32.sub_self, if_pos (UInt32.le_refl 0), if_pos rfl, UInt32.add_zero, h]
  · have hne : ¬a - ptr ≤ 0 := by
      rw [UInt32.le_zero_iff, UInt32.sub_eq_iff_eq_add, UInt32.zero_add]
      exact ha
    rw [if_neg ha, if_neg hne]

theorem copyString_round (hlen : len ≠ 0) (hkeep : ∀ i < len,
      Function.update mem ptr (mem src) (src + 1 + i) = mem (src + 1 + i)) :
    copyString (Function.update mem ptr (mem src)) (ptr + 1) (src + 1) (len - 1) =
      copyString mem ptr src len := by
  funext a
  have hdist : a - (ptr + 1) = a - ptr - 1 := by grind
  rw [copyString, copyString, hdist]
  by_cases ha : a = ptr
  · have hfirst : ¬a - ptr - 1 ≤ len - 1 := by
      rw [sub_one_le_sub_one_iff hlen, ha, UInt32.sub_self]
      exact fun h => h.1 rfl
    rw [if_neg hfirst, ha, UInt32.sub_self, if_pos UInt32.zero_le, UInt32.add_zero,
      Function.update_self]
  · have hne : a - ptr ≠ 0 := by
      rw [ne_eq, UInt32.sub_eq_iff_eq_add, UInt32.zero_add]
      exact ha
    by_cases hle : a - ptr ≤ len
    · have hrest := (sub_one_le_sub_one_iff hlen).mpr ⟨hne, hle⟩
      have hsame : src + 1 + (a - ptr - 1) = src + (a - ptr) := by grind
      rw [if_pos hrest, if_pos hle, hkeep _ (UInt32.lt_of_le_of_lt hrest (sub_one_lt hlen)), hsame]
    · rw [if_neg fun h => hle ((sub_one_le_sub_one_iff hlen).mp h).2, if_neg hle,
        Function.update_of_ne ha]

theorem strcpyLoop_eq (h : StringAt mem src len) (hdist : ptr = src ∨ len < ptr - src)
    (rounds : ℕ) :
    strcpyLoop rounds ptr src mem =
      if len.toNat < rounds then some (copyString mem ptr src len) else none := by
  induction rounds generalizing mem src ptr len with
  | zero => rfl
  | succ rounds ih =>
    rw [strcpyLoop]
    by_cases hlen : len = 0
    · subst hlen
      have hsrc : mem src = 0 := by
        have hend := h.zero
        rwa [UInt32.add_zero] at hend
      rw [if_pos hsrc, UInt32.toNat_zero, if_pos (Nat.succ_pos _), copyString_zero hsrc]
    · obtain ⟨hkeep, hrest⟩ := h.round hlen hdist
      have hsrc : mem src ≠ 0 := by
        have hfirst := h.nonzero 0 (UInt32.pos_iff_ne_zero.mpr hlen)
        rwa [UInt32.add_zero] at hfirst
      have hpred := toNat_sub_one hlen
      have hdist' : ptr + 1 = src + 1 ∨ len - 1 < ptr + 1 - (src + 1) := by
        have hgap : ptr + 1 - (src + 1) = ptr - src := by grind
        rw [hgap]
        exact hdist.imp (congrArg (· + 1)) (UInt32.lt_trans (sub_one_lt hlen))
      rw [if_neg hsrc, ih hrest hdist', copyString_round hlen hkeep, ← hpred]
      simp only [Nat.add_lt_add_iff_right]

theorem strcpyLoop_unterminated (h : ∀ a, mem a ≠ 0) (rounds : ℕ) :
    strcpyLoop rounds ptr src mem = none := by
  induction rounds generalizing mem src ptr with
  | zero => rfl
  | succ rounds ih =>
    rw [strcpyLoop, if_neg (h src)]
    refine ih fun a => ?_
    rw [Function.update_apply]
    split_ifs
    · exact h src
    · exact h a

theorem exists_stringAt {a : UInt32} (ha : mem a = 0) (src : UInt32) :
    ∃ len, StringAt mem src len := by
  have hexists : ∃ n, mem (src + UInt32.ofNat n) = 0 := by
    refine ⟨(a - src).toNat, ?_⟩
    have hsum : src + (a - src) = a := by grind
    rw [UInt32.ofNat_toNat, hsum, ha]
  refine ⟨UInt32.ofNat (Nat.find hexists), fun i hi => ?_, Nat.find_spec hexists⟩
  have hlt := UInt32.lt_iff_toNat_lt.mp hi
  rw [UInt32.toNat_ofNat'] at hlt
  have hfirst := Nat.find_min hexists (Nat.lt_of_lt_of_le hlt (Nat.mod_le _ _))
  rwa [UInt32.ofNat_toNat] at hfirst

/-- **`strcpy` returns exactly if** there is a string and the target is not one of the bytes behind
its first one, up to its end. Then the string is in the target as well. -/
theorem strcpy_returns_iff (mem : AddressSpace) (dest src p : UInt32) (mem' : AddressSpace) :
    (∃ rounds, strcpy rounds mem dest src = some (p, mem')) ↔
      ∃ len, StringAt mem src len ∧ (dest = src ∨ len < dest - src) ∧ p = dest ∧
        mem' = copyString mem dest src len ∧ StringAt mem' dest len := by
  constructor
  · rintro ⟨rounds, h⟩
    obtain ⟨t, hloop, hpair⟩ := Option.map_eq_some_iff.mp h
    obtain ⟨rfl, rfl⟩ := Prod.mk.inj hpair
    obtain ⟨a, ha⟩ : ∃ a, mem a = 0 := by
      by_contra hnone
      rw [strcpyLoop_unterminated (fun a ha => hnone ⟨a, ha⟩)] at hloop
      cases hloop
    obtain ⟨len, hstring⟩ := exists_stringAt ha src
    have hdist : dest = src ∨ len < dest - src := by
      by_contra hclose
      rw [not_or] at hclose
      have hgap : NoZeroBetween mem src dest := fun i hi => hstring.nonzero i (by grind)
      rw [strcpyLoop_endless hgap hclose.1] at hloop
      cases hloop
    rw [strcpyLoop_eq hstring hdist] at hloop
    split_ifs at hloop
    obtain rfl := Option.some.inj hloop
    exact ⟨len, hstring, hdist, rfl, rfl, hstring.copyString dest⟩
  · rintro ⟨len, hstring, hdist, rfl, rfl, -⟩
    refine ⟨len.toNat + 1, ?_⟩
    rw [strcpy, strcpyLoop_eq hstring hdist, if_pos (Nat.lt_succ_self _)]
    rfl

end Strcpy

end AddressSpace

end Ahos
