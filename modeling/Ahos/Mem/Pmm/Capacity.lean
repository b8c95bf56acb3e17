import Ahos.Lib.Bytes
import Ahos.Libc.Memmove
import Ahos.Mem.Pmm.Limit

/-!
# The room for the map

`phys_mem_map_size` reserves three entries for every 24 bytes of the multiboot map, for the kernel,
for the map itself and for the module. The map is modelled here as it lies in this room: the
counter `len` and the entries behind it, with writes that are checked against the size of the room.
On it `fill_phys_mmap` and `reserve_region` do the same as on the list of the entries as long as
the list fits, and write outside otherwise. The entries move as their bytes do in the memory.
-/

namespace Ahos

/-! ## The map in memory -/

/-- The memory at `phys_mem_map`: `size` bytes, with the counter at the start and entries of 12
bytes behind it. -/
structure PmmMemory where
  size : ℕ
  len : ℕ
  entries : ℕ → PhysMmapEntry

namespace PmmMemory

/-- The entry `i` lies in the memory. -/
def Inside (size i : ℕ) : Prop := 4 + 12 * (i + 1) ≤ size

instance (size i : ℕ) : Decidable (Inside size i) := by
  unfold Inside
  infer_instance

/-- Reading the entry `i`. -/
def read (m : PmmMemory) (i : ℕ) : Outcome PhysMmapEntry :=
  if Inside m.size i then .ok (m.entries i) else .error .outOfBounds

/-- Writing the entry `i`. -/
def write (m : PmmMemory) (i : ℕ) (e : PhysMmapEntry) : Outcome PmmMemory :=
  if Inside m.size i then .ok { m with entries := Function.update m.entries i e }
  else .error .outOfBounds

/-- Writing `len`. -/
def setLen (m : PmmMemory) (len : ℕ) : Outcome PmmMemory :=
  if 4 ≤ m.size then .ok { m with len := len } else .error .outOfBounds

/-- A round of the loop of `memmove`, over a whole entry. -/
def moveEntry (size dst src : ℕ) (entries : ℕ → PhysMmapEntry) (i : ℕ) :
    Outcome (ℕ → PhysMmapEntry) :=
  if Inside size (dst + i) ∧ Inside size (src + i) then .ok (Move.copyCell dst src entries i)
  else .error .outOfBounds

/-- `memmove` of `n` entries to a place behind them: the last entry is moved first. -/
def memmove (m : PmmMemory) (dst src n : ℕ) : Outcome PmmMemory := do
  let entries ← (List.range n).reverse.foldlM (moveEntry m.size dst src) m.entries
  return { m with entries := entries }

end PmmMemory

/-- `fill_phys_mmap`, from the entry `entry` on. -/
def fillEntries : List MultibootMmapEntry → ℕ → PmmMemory → Outcome PmmMemory
  | [], entry, pmm => pmm.setLen entry
  | mmap :: rest, entry, pmm =>
    if mmap.addr >>> 32 ≠ 0 then fillEntries rest entry pmm
    else do
      let pmm ← pmm.write entry
        { addr := mmap.addr &&& 0xffffffff, len := segLen mmap, type := MmapType.ofCode mmap.type }
      fillEntries rest (entry + 1) pmm

/-- `split_region`. -/
def splitEntry (pmm : PmmMemory) (entry addr : ℕ) : Outcome (Bool × PmmMemory) :=
  if entry ≥ pmm.len then .ok (false, pmm)
  else do
    let pmme ← pmm.read entry
    if addr ≤ pmme.addr ∨ addr ≥ pmme.endAddr then .ok (false, pmm)
    else
      let pmm ← pmm.memmove (entry + 2) (entry + 1) (pmm.len - (entry + 1))
      let pmm ← pmm.setLen (pmm.len + 1)
      let pmme ← pmm.read entry
      let next : PhysMmapEntry :=
        { addr := addr, len := Word32.sub pmme.len (Word32.sub addr pmme.addr), type := pmme.type }
      let pmm ← pmm.write (entry + 1) next
      let pmm ← pmm.write entry { pmme with len := Word32.sub pmme.len next.len }
      return (true, pmm)

/-- The search of `reserve_region`: the number of entries that are left, and the next one. -/
def searchEntry (pmm : PmmMemory) (addr len : ℕ) : ℕ → ℕ → Outcome (Option ℕ)
  | 0, _ => .ok none
  | n + 1, entry => do
    let pmme ← pmm.read entry
    if pmme.type ≠ .available then searchEntry pmm addr len n (entry + 1)
    else if addr ≥ pmme.addr ∧ Word32.add addr len ≤ pmme.endAddr then return some entry
    else searchEntry pmm addr len n (entry + 1)

/-- The loop of `reserve_region` from `retry` on. The first argument bounds the number of splits. -/
def reserveEntries (splits : ℕ) (pmm : PmmMemory) (addr len : ℕ) : Outcome (Bool × PmmMemory) := do
  match ← searchEntry pmm addr len pmm.len 0 with
  | none => return (false, pmm)
  | some entry =>
    let pmme ← pmm.read entry
    if pmme.len = len then
      let pmm ← pmm.write entry { pmme with type := .reserved }
      return (true, pmm)
    else
      match ← splitEntry pmm entry (splitAddress pmme addr len) with
      | (false, pmm) => return (false, pmm)
      | (true, pmm) =>
        match splits with
        | 0 => .error .loops
        | splits + 1 => reserveEntries splits pmm addr len

/-- The map in memory, and the static counter of `reserve_region`. -/
structure PmmState where
  pmm : PmmMemory
  nbReserved : ℕ

/-- `reserve_region`. Two splits are enough for its loop. -/
def reserveInMemory (g : PmmState) (addr len : ℕ) : Outcome (Bool × PmmState) :=
  if g.nbReserved = maxReserved then .ok (false, g)
  else do
    let (ok, pmm) ← reserveEntries 2 g.pmm addr len
    return (ok, ⟨pmm, if ok then g.nbReserved + 1 else g.nbReserved⟩)

/-- Calls of `reserve_region`, up to the first one that fails. -/
def reserveCallsInMemory : PmmState → List (ℕ × ℕ) → Outcome PmmState
  | g, [] => .ok g
  | g, call :: calls => do
    let (ok, g) ← reserveInMemory g call.1 call.2
    if ok then reserveCallsInMemory g calls else return g

/-- The end of `phys_mem_map_init`: the map is filled, and the reservations follow. -/
def fillAndReserve (pmm : PmmMemory) (mmap : List MultibootMmapEntry) (calls : List (ℕ × ℕ)) :
    Outcome PmmState := do
  let pmm ← fillEntries mmap 0 pmm
  reserveCallsInMemory ⟨pmm, 0⟩ calls

/-! ## The list of the entries -/

/-- A search keeps the entries of the list, or adds one. -/
theorem length_le_reserveLoop (pmm : PhysMmap) (addr len : ℕ) :
    pmm.length ≤ (reserveLoop pmm addr len).2.length := by
  refine reserveLoop_invariant (P := fun pmm' => pmm.length ≤ pmm'.length) ?_ ?_ le_rfl
  · intro p ok p' hle hstep
    rcases exists_first_fit p addr len with hnone | ⟨l, e, r, rfl, hl, he⟩
    · rw [reserveStep_none hnone] at hstep
      obtain ⟨-, rfl⟩ := Prod.mk.inj (Sum.inl.inj hstep)
      exact hle
    · rw [reserveStep_append hl he] at hstep
      split_ifs at hstep <;> obtain ⟨-, rfl⟩ := Prod.mk.inj (Sum.inl.inj hstep)
      · simpa using hle
      · exact hle
  · intro p p' hle hstep
    rcases exists_first_fit p addr len with hnone | ⟨l, e, r, rfl, hl, he⟩
    · rw [reserveStep_none hnone] at hstep
      cases hstep
    · rw [reserveStep_append hl he] at hstep
      split_ifs at hstep
      obtain rfl := Sum.inr.inj hstep
      simp only [List.length_append, List.length_cons] at *
      omega

theorem length_le_reserveWithin {n : ℕ} {pmm : PhysMmap} {addr len : ℕ} {res : Bool × PhysMmap}
    (h : reserveWithin n pmm addr len = some res) : pmm.length ≤ res.2.length := by
  rw [← reserveWithin_sound h]
  exact length_le_reserveLoop pmm addr len

/-! ## The memory holds the list -/

namespace PmmMemory

/-- The memory holds the entries of a list. -/
structure Holds (m : PmmMemory) (pmm : PhysMmap) : Prop where
  len_eq : m.len = pmm.length
  entries : ∀ i e, pmm[i]? = some e → m.entries i = e

/-- The bytes that the entries of a list take with the counter before them. -/
def room (pmm : PhysMmap) : ℕ := 4 + 12 * pmm.length

variable {m : PmmMemory} {l r pmm : PhysMmap} {e : PhysMmapEntry} {addr len : ℕ}

theorem read_eq {i : ℕ} (h : 4 + 12 * (i + 1) ≤ m.size) : m.read i = .ok (m.entries i) := if_pos h

theorem write_eq {i : ℕ} (h : 4 + 12 * (i + 1) ≤ m.size) :
    m.write i e = .ok { m with entries := Function.update m.entries i e } := if_pos h

theorem write_outside {i : ℕ} (h : m.size < 4 + 12 * (i + 1)) : m.write i e = .error .outOfBounds :=
  if_neg fun hin => absurd h (not_lt.mpr hin)

theorem setLen_eq (h : 4 ≤ m.size) : m.setLen len = .ok { m with len := len } := if_pos h

/-- `memmove` upwards moves the entries if the last of them lies in the memory. -/
theorem memmove_eq {dst src n : ℕ} (hle : src ≤ dst) :
    m.memmove dst src n =
      if n = 0 ∨ 4 + 12 * (dst + n) ≤ m.size then
        .ok { m with entries := Move.moved m.entries dst src n }
      else .error .outOfBounds := by
  unfold memmove
  split_ifs with hfit
  · have hround : ∀ i ∈ (List.range n).reverse, ∀ entries, moveEntry m.size dst src entries i =
        .ok (Move.copyCell dst src entries i) := by
      intro i hi entries
      have := List.mem_range.mp (List.mem_reverse.mp hi)
      exact if_pos ⟨by unfold Inside; omega, by unfold Inside; omega⟩
    rw [Run.foldlM_ok hround, Run.ok_bind, Move.copyDown_eq hle]
    rfl
  · -- the first round writes outside
    obtain ⟨n, rfl⟩ : ∃ k, n = k + 1 := ⟨n - 1, by omega⟩
    have hround : moveEntry m.size dst src m.entries n = .error .outOfBounds :=
      if_neg fun h => by
        have := h.1
        unfold Inside at this
        omega
    rw [List.range_succ, List.reverse_append, List.reverse_singleton, List.singleton_append,
      List.foldlM_cons, hround]
    rfl

/-- The entry in the twelve bytes of a block. -/
def entryOf (block : ℕ → Option UInt8) : PhysMmapEntry :=
  let byte := fun k => (block k).elim 0 UInt8.toNat
  { addr := Bytes.word byte 0, len := Bytes.word byte 4, type := .ofCode (Bytes.word byte 8) }

theorem entryOf_congr {block block' : ℕ → Option UInt8} (h : ∀ k < 12, block k = block' k) :
    entryOf block = entryOf block' := by
  have hword : ∀ p ≤ 8, Bytes.word (fun k => (block k).elim 0 UInt8.toNat) p =
      Bytes.word (fun k => (block' k).elim 0 UInt8.toNat) p := by
    intro p hp
    apply Bytes.word_congr
    intro k _ hk
    simp only [h k (by omega)]
  simp only [entryOf, hword 0 (by omega), hword 4 (by omega), hword 8 (by omega)]

/-- The entries lie in the memory, behind a counter at the address `p`. -/
def EntriesAt (m : PmmMemory) (mem : AddressSpace) (p : ℕ) : Prop :=
  ∀ i, Inside m.size i → entryOf (fun k => mem.cells (p + 4 + (12 * i + k))) = m.entries i

/-- `memmove` of entries is `memmove` of their bytes. -/
theorem EntriesAt.memmove {m' : PmmMemory} {mem : AddressSpace} {p dst src n : ℕ}
    (h : m.EntriesAt mem p) (hsize : p + m.size < 4294967296) (hle : src ≤ dst)
    (hmove : m.memmove dst src n = .ok m') :
    m'.EntriesAt (mem.memmove (UInt32.ofNat (p + 4 + 12 * dst)) (UInt32.ofNat (p + 4 + 12 * src))
      (UInt32.ofNat (12 * n))).2 p := by
  rw [memmove_eq hle] at hmove
  split_ifs at hmove with hfit
  obtain rfl := Except.ok.inj hmove
  by_cases hn : n = 0
  · subst hn
    rw [Move.moved_zero, Nat.mul_zero]
    exact (AddressSpace.memmove_zero mem _ _).symm ▸ h
  · intro i hi
    have hsrc : ∀ j < n, Inside m.size (src + j) := by
      intro j hj
      unfold Inside
      omega
    refine Eq.trans ?_ (Move.moved_rel (R := fun block e => entryOf block = e) h hsrc i hi)
    apply entryOf_congr
    intro k hk
    rw [AddressSpace.cells_memmove_offset (by omega) (by omega), Move.moved_block _ 12 _ _ _ _ hk]

theorem Holds.entry (h : m.Holds (l ++ e :: r)) : m.entries l.length = e :=
  h.entries _ _ (by simp)

/-- An entry is written in its place. -/
theorem Holds.set (h : m.Holds (l ++ e :: r)) (f : PhysMmapEntry) :
    (⟨m.size, m.len, Function.update m.entries l.length f⟩ : PmmMemory).Holds (l ++ f :: r) := by
  refine ⟨by simpa using h.len_eq, fun i q hq => ?_⟩
  have hset : l ++ f :: r = (l ++ e :: r).set l.length f := by simp
  rw [hset] at hq
  simp only [Function.update_apply]
  split_ifs with hi
  · subst hi
    simpa using hq
  · rw [List.getElem?_set_ne (Ne.symm hi)] at hq
    exact h.entries i q hq

/-- The rounds of the search over entries that do not fit. -/
theorem searchEntry_skip (k entry n : ℕ) (hsize : 4 + 12 * (entry + k) ≤ m.size)
    (h : ∀ i < k, ¬ (m.entries (entry + i)).Fits addr len) :
    searchEntry m addr len (k + n) entry = searchEntry m addr len n (entry + k) := by
  induction k generalizing entry with
  | zero => rw [Nat.zero_add, Nat.add_zero]
  | succ k ih =>
    have hfirst : ¬ (m.entries entry).Fits addr len := h 0 (by omega)
    have hrest := ih (entry + 1) (by omega) fun i hi => by
      have := h (i + 1) (by omega)
      rwa [show entry + (i + 1) = entry + 1 + i by omega] at this
    rw [show k + 1 + n = k + n + 1 by omega, searchEntry, read_eq (by omega), Run.ok_bind]
    rw [show entry + (k + 1) = entry + 1 + k by omega, ← hrest]
    split_ifs with htype hfit
    · rfl
    · exact absurd ⟨not_not.mp htype, hfit⟩ hfirst
    · rfl

/-- The search finds nothing in a list without an entry that fits. -/
theorem searchEntry_none (h : m.Holds pmm) (hsize : room pmm ≤ m.size)
    (hnone : ∀ q ∈ pmm, ¬ q.Fits addr len) : searchEntry m addr len m.len 0 = .ok none := by
  rw [room] at hsize
  have hnot : ∀ i < pmm.length, ¬ (m.entries (0 + i)).Fits addr len := by
    intro i hi
    rw [Nat.zero_add, h.entries i _ (List.getElem?_eq_getElem hi)]
    exact hnone _ (List.getElem_mem hi)
  have hskip := searchEntry_skip pmm.length 0 0 (by omega) hnot
  rw [h.len_eq]
  simpa [searchEntry] using hskip

/-- The search finds the first entry that fits. -/
theorem searchEntry_some (h : m.Holds (l ++ e :: r)) (hsize : room (l ++ e :: r) ≤ m.size)
    (hl : ∀ q ∈ l, ¬ q.Fits addr len) (he : e.Fits addr len) :
    searchEntry m addr len m.len 0 = .ok (some l.length) := by
  rw [room, List.length_append, List.length_cons] at hsize
  have hnot : ∀ i < l.length, ¬ (m.entries (0 + i)).Fits addr len := by
    intro i hi
    have hget : (l ++ e :: r)[i]? = some l[i] := by
      rw [List.getElem?_append_left hi, List.getElem?_eq_getElem hi]
    rw [Nat.zero_add, h.entries i _ hget]
    exact hl _ (List.getElem_mem hi)
  have hskip := searchEntry_skip l.length 0 (r.length + 1) (by omega) hnot
  rw [h.len_eq, List.length_append, List.length_cons, hskip, searchEntry, Nat.zero_add,
    read_eq (by omega), Run.ok_bind, h.entry, if_neg (not_not.mpr he.1), if_pos he.2]
  rfl

/-- The cells after a split: the entries behind the cut one moved on by one. -/
theorem splitEntries (h : m.Holds (l ++ e :: r)) (a b : PhysMmapEntry) :
    (⟨m.size, m.len + 1, Function.update (Function.update
      (Move.moved m.entries (l.length + 2) (l.length + 1) r.length) (l.length + 1) b)
      l.length a⟩ : PmmMemory).Holds (l ++ a :: b :: r) := by
  refine ⟨?_, fun i q hq => ?_⟩
  · simp only [h.len_eq, List.length_append, List.length_cons]
    omega
  simp only [Function.update_apply, Move.moved]
  rcases lt_trichotomy i l.length with hi | rfl | hi
  · rw [if_neg (by omega), if_neg (by omega), if_neg (by omega)]
    rw [List.getElem?_append_left hi] at hq
    exact h.entries i q (by rw [List.getElem?_append_left hi, hq])
  · rw [if_pos rfl]
    simpa using hq
  · obtain ⟨k, rfl⟩ := Nat.exists_eq_add_of_lt hi
    rw [List.getElem?_append_right (by omega), show l.length + k + 1 - l.length = k + 1 by omega,
      List.getElem?_cons_succ] at hq
    rw [if_neg (by omega)]
    cases k with
    | zero =>
      rw [if_pos rfl]
      simpa using hq
    | succ k =>
      rw [List.getElem?_cons_succ] at hq
      obtain ⟨hk, -⟩ := List.getElem?_eq_some_iff.mp hq
      rw [if_neg (by omega), if_pos (by omega)]
      refine h.entries _ q ?_
      rw [List.getElem?_append_right (by omega),
        show l.length + 1 + (l.length + (k + 1) + 1 - (l.length + 2)) - l.length = k + 1 by omega,
        List.getElem?_cons_succ, hq]

/-- A refused split changes nothing. -/
theorem splitEntry_refused {x : ℕ} (h : m.Holds (l ++ e :: r)) (hsize : room (l ++ e :: r) ≤ m.size)
    (hx : x ≤ e.addr ∨ x ≥ e.endAddr) : splitEntry m l.length x = .ok (false, m) := by
  have hlen := h.len_eq
  rw [room, List.length_append, List.length_cons] at *
  rw [splitEntry, if_neg (by omega), read_eq (by omega), Run.ok_bind, h.entry, if_pos hx]

/-- A split needs room for one more entry. -/
theorem splitEntry_needs {x : ℕ} (h : m.Holds (l ++ e :: r)) (hsize : room (l ++ e :: r) ≤ m.size)
    (hlo : e.addr < x) (hhi : x < e.endAddr) :
    Run.Needs .outOfBounds m.size (room (l ++ e.left x :: e.right x :: r))
      (splitEntry m l.length x) fun res =>
        res.1 = true ∧ res.2.size = m.size ∧ res.2.Holds (l ++ e.left x :: e.right x :: r) := by
  obtain ⟨hsub, hleft⟩ := PhysMmapEntry.split_lengths hlo hhi
  have hlen := h.len_eq
  simp only [room, List.length_append, List.length_cons] at *
  have hrest : m.len - (l.length + 1) = r.length := by omega
  have hkept : Move.moved m.entries (l.length + 2) (l.length + 1) r.length l.length = e := by
    rw [Move.moved_of_outside (by omega), h.entry]
  rw [splitEntry, if_neg (by omega), read_eq (by omega), Run.ok_bind, h.entry, if_neg (by omega),
    hrest, memmove_eq (by omega)]
  refine ⟨fun hfit => ?_, fun hlt => ?_⟩
  · rw [if_pos (by omega), Run.ok_bind, setLen_eq (by simp only; omega), Run.ok_bind,
      read_eq (by simp only; omega), Run.ok_bind]
    simp only [hkept, hsub]
    rw [write_eq (by simp only; omega), Run.ok_bind, write_eq (by simp only; omega), Run.ok_bind]
    refine ⟨_, rfl, rfl, rfl, ?_⟩
    simp only [hleft]
    exact splitEntries h (e.left x) (e.right x)
  · by_cases hr : r.length = 0
    · -- nothing is moved, and the new entry is written outside
      rw [if_pos (.inl hr), Run.ok_bind, setLen_eq (by simp only; omega), Run.ok_bind,
        read_eq (by simp only; omega), Run.ok_bind]
      simp only [hkept]
      rw [write_outside (by simp only; omega)]
      rfl
    · rw [if_neg (by omega)]
      rfl

/-- The loop on the memory does what the loop on the list does, if the result fits. -/
theorem reserveEntries_needs {n : ℕ} {res : Bool × PhysMmap} (h : m.Holds pmm)
    (hsize : room pmm ≤ m.size) (hres : reserveWithin n pmm addr len = some res) :
    Run.Needs .outOfBounds m.size (room res.2) (reserveEntries n m addr len) fun out =>
      out.1 = res.1 ∧ out.2.size = m.size ∧ out.2.Holds res.2 := by
  induction n using Nat.strong_induction_on generalizing m pmm with
  | _ n ih =>
    rcases exists_first_fit pmm addr len with hnone | ⟨l, e, r, rfl, hl, he⟩
    · rw [reserveWithin.eq_def, reserveStep_none hnone] at hres
      obtain rfl := Option.some.inj hres
      rw [reserveEntries.eq_def, searchEntry_none h hsize hnone]
      exact Run.needs_ok ⟨rfl, rfl, h⟩ hsize
    have hentry : 4 + 12 * (l.length + 1) ≤ m.size := by
      rw [room, List.length_append, List.length_cons] at hsize
      omega
    rw [reserveEntries.eq_def, searchEntry_some h hsize hl he, Run.ok_bind]
    simp only [read_eq hentry, Run.ok_bind, h.entry]
    rw [reserveWithin.eq_def, reserveStep_append hl he] at hres
    split_ifs at hres ⊢ with hfull hcut
    · -- the entry is reserved in its place
      obtain rfl := Option.some.inj hres
      rw [write_eq hentry, Run.ok_bind]
      exact Run.needs_ok ⟨rfl, rfl, h.set _⟩ (by simpa [room] using hsize)
    · obtain rfl := Option.some.inj hres
      rw [splitEntry_refused h hsize hcut, Run.ok_bind]
      exact Run.needs_ok ⟨rfl, rfl, h⟩ hsize
    · -- the entry is cut, and the search starts again
      cases n with
      | zero => cases hres
      | succ n =>
        simp only at hres
        have hgrow := length_le_reserveWithin hres
        refine (splitEntry_needs h hsize (by omega) (by omega)).bind (by unfold room; omega)
          fun hfit out hout => ?_
        obtain ⟨ok, m'⟩ := out
        obtain ⟨rfl, hm', hholds⟩ := hout
        simp only at hm' hholds
        have := ih n (by omega) hholds (by omega) hres
        rw [hm'] at this
        exact this

/-- `fill_phys_mmap` behind entries that are already written. -/
theorem fillEntries_needs (mmap : List MultibootMmapEntry) (written : PhysMmap)
    (h : ∀ i e, written[i]? = some e → m.entries i = e) (hsize : room written ≤ m.size) :
    Run.Needs .outOfBounds m.size (room (written ++ fillPhysMmap mmap))
      (fillEntries mmap written.length m) fun out =>
        out.size = m.size ∧ out.Holds (written ++ fillPhysMmap mmap) := by
  induction mmap generalizing m written with
  | nil =>
    rw [room] at hsize
    rw [fillEntries, setLen_eq (by omega), fillPhysMmap, List.filterMap_nil, List.append_nil]
    exact Run.needs_ok ⟨rfl, rfl, h⟩ hsize
  | cons mmap rest ih =>
    rw [fillEntries]
    by_cases hhigh : mmap.addr >>> 32 ≠ 0
    · have hfill : fillPhysMmap (mmap :: rest) = fillPhysMmap rest := by
        simp only [fillPhysMmap, List.filterMap_cons, if_pos hhigh]
      rw [if_pos hhigh, hfill]
      exact ih written h hsize
    · have hfill : written ++ fillPhysMmap (mmap :: rest) =
          written ++ [lowEntry mmap] ++ fillPhysMmap rest := by
        simp only [fillPhysMmap, List.filterMap_cons, if_neg hhigh, lowEntry, List.append_assoc,
          List.singleton_append]
      rw [if_neg hhigh, hfill]
      have hwrite : Run.Needs .outOfBounds m.size (room (written ++ [lowEntry mmap]))
          (m.write written.length (lowEntry mmap)) fun out => out.size = m.size ∧
            ∀ i e, (written ++ [lowEntry mmap])[i]? = some e → out.entries i = e := by
        refine ⟨fun hfit => ⟨_, write_eq (by simpa [room] using hfit), rfl, fun i e he => ?_⟩,
          fun hlt => write_outside (by simpa [room] using hlt)⟩
        simp only [Function.update_apply]
        split_ifs with hi
        · subst hi
          simpa using he
        · obtain ⟨hlt, -⟩ := List.getElem?_eq_some_iff.mp he
          rw [List.length_append, List.length_singleton] at hlt
          rw [List.getElem?_append_left (by omega)] at he
          exact h i e he
      refine hwrite.bind ?_ fun hfit out hout => ?_
      · simp only [room, List.length_append]
        omega
      · obtain ⟨hout, hentries⟩ := hout
        have := ih _ hentries (hout.symm ▸ hfit)
        rw [hout, List.length_append, List.length_singleton] at this
        exact this

end PmmMemory

/-! ## Runs -/

/-- Calls of `reserve_region` on the list, up to the first one that fails. -/
def reserveInOrder : PhysMemMap → List (ℕ × ℕ) → PhysMemMap
  | g, [] => g
  | g, call :: calls =>
    match reserveRegion g call.1 call.2 with
    | (true, g) => reserveInOrder g calls
    | (false, g) => g

/-- The calls of `reserve_region` in `phys_mem_map_init`: kernel, map and module. -/
def initCalls (kernel : KernelImage) (mbi : MultibootInfo) (pmmAddr pmmSize : ℕ) :
    List (ℕ × ℕ) :=
  [(kernel.kernelStart, Word32.sub kernel.kernelEnd kernel.kernelStart), (pmmAddr, pmmSize)] ++
    if mbi.hasMods then [(mbi.mod.modStart, Word32.sub mbi.mod.modEnd mbi.mod.modStart)] else []

/-- The map that `phys_mem_map_init` leaves behind is the one after these calls. -/
theorem physMemMap_of_reserveAll {kernel : KernelImage} {mbi : MultibootInfo} {pmmAddr pmmSize : ℕ}
    {init : PhysMemMapInit} (h : reserveAll kernel mbi pmmAddr pmmSize = some init) :
    init.physMemMap = (reserveInOrder ⟨fillPhysMmap mbi.mmap, 0⟩
      (initCalls kernel mbi pmmAddr pmmSize)).entries := by
  unfold reserveAll at h
  split at h
  · cases h
  next g₁ hkernel =>
  split at h
  · cases h
  next g₂ hpmm =>
  simp only [initCalls, List.cons_append, List.nil_append, reserveInOrder, hkernel, hpmm]
  split_ifs at h ⊢
  · simp only at h
    split at h
    · cases h
    next g₃ hmod =>
    obtain rfl := Option.some.inj h
    simp only [reserveInOrder, hmod]
  · obtain rfl := Option.some.inj h
    rfl

/-- The state in memory holds the state of the model. -/
structure PmmState.Holds (s : PmmState) (size : ℕ) (g : PhysMemMap) : Prop where
  size_eq : s.pmm.size = size
  entries : s.pmm.Holds g.entries
  nbReserved : s.nbReserved = g.nbReserved

section Runs

variable {s : PmmState} {g : PhysMemMap} {size addr len : ℕ} {calls : List (ℕ × ℕ)}

open PmmMemory (room)

/-- A call adds two entries at most. -/
theorem length_reserveRegion (g : PhysMemMap) (haddr : addr < 4294967296)
    (hlen : len < 4294967296) :
    g.entries.length ≤ (reserveRegion g addr len).2.entries.length ∧
      (reserveRegion g addr len).2.entries.length ≤ g.entries.length + 2 := by
  obtain ⟨res, hres, hle⟩ := reserveWithin_two g.entries haddr hlen
  have := length_le_reserveWithin hres
  rw [reserveRegion_eq, reserveWithin_sound hres]
  by_cases hmax : g.nbReserved = maxReserved
  · rw [if_pos hmax]
    exact ⟨le_rfl, by simp⟩
  · rw [if_neg hmax]
    exact ⟨this, hle⟩

/-- Calls only add entries, at most two each. -/
theorem length_reserveInOrder (hcalls : ∀ c ∈ calls, c.1 < 4294967296 ∧ c.2 < 4294967296) :
    g.entries.length ≤ (reserveInOrder g calls).entries.length ∧
      (reserveInOrder g calls).entries.length ≤ g.entries.length + 2 * calls.length := by
  induction calls generalizing g with
  | nil => exact ⟨le_rfl, by simp [reserveInOrder]⟩
  | cons call calls ih =>
    obtain ⟨haddr, hlen⟩ := hcalls call (List.mem_cons_self ..)
    have hfirst := length_reserveRegion g haddr hlen
    have hrest := fun g => ih (g := g) fun c hc => hcalls c (List.mem_cons_of_mem _ hc)
    rw [reserveInOrder, List.length_cons]
    revert hfirst
    rcases reserveRegion g call.1 call.2 with ⟨_ | _, g'⟩
    · simp only
      omega
    · have := hrest g'
      simp only
      omega

/-- `reserve_region` on the memory. -/
theorem reserveInMemory_needs (h : s.Holds size g) (hsize : room g.entries ≤ size)
    (haddr : addr < 4294967296) (hlen : len < 4294967296) :
    Run.Needs .outOfBounds size (room (reserveRegion g addr len).2.entries)
      (reserveInMemory s addr len) fun out =>
        out.1 = (reserveRegion g addr len).1 ∧ out.2.Holds size (reserveRegion g addr len).2 := by
  obtain ⟨res, hres, -⟩ := reserveWithin_two g.entries haddr hlen
  have hloop := PmmMemory.reserveEntries_needs h.entries (h.size_eq.symm ▸ hsize) hres
  rw [h.size_eq] at hloop
  rw [reserveInMemory, reserveRegion_eq, reserveWithin_sound hres, h.nbReserved]
  by_cases hmax : g.nbReserved = maxReserved
  · rw [if_pos hmax, if_pos hmax]
    exact Run.needs_ok ⟨rfl, h⟩ hsize
  · rw [if_neg hmax, if_neg hmax]
    refine hloop.bind le_rfl fun hfit out hout => ?_
    obtain ⟨ok, pmm⟩ := out
    obtain ⟨rfl, hpmm, hholds⟩ := hout
    exact Run.needs_ok ⟨rfl, hpmm, hholds, rfl⟩ hfit

/-- The calls on the memory. -/
theorem reserveCallsInMemory_needs (h : s.Holds size g) (hsize : room g.entries ≤ size)
    (hcalls : ∀ c ∈ calls, c.1 < 4294967296 ∧ c.2 < 4294967296) :
    Run.Needs .outOfBounds size (room (reserveInOrder g calls).entries)
      (reserveCallsInMemory s calls) fun out => out.Holds size (reserveInOrder g calls) := by
  induction calls generalizing s g with
  | nil => exact Run.needs_ok h hsize
  | cons call calls ih =>
    obtain ⟨haddr, hlen⟩ := hcalls call (List.mem_cons_self ..)
    have hcalls' := fun c hc => hcalls c (List.mem_cons_of_mem _ hc)
    have hstep := reserveInMemory_needs h hsize haddr hlen
    rw [reserveCallsInMemory, reserveInOrder]
    revert hstep
    rcases reserveRegion g call.1 call.2 with ⟨_ | _, g'⟩
    · intro hstep
      refine hstep.bind le_rfl fun hfit out hout => ?_
      obtain ⟨ok, s'⟩ := out
      obtain ⟨rfl, hs'⟩ := hout
      exact Run.needs_ok hs' hfit
    · intro hstep
      refine hstep.bind ?_ fun hfit out hout => ?_
      · have := (length_reserveInOrder (g := g') hcalls').1
        simp only [room]
        omega
      · obtain ⟨ok, s'⟩ := out
        obtain ⟨rfl, hs'⟩ := hout
        exact ih hs' hfit hcalls'

/-- **The map in memory and the list of its entries.** The map is filled and the reservations are
made as on the list if the entries fit into the memory. Otherwise the code writes outside. -/
theorem fillAndReserve_needs (pmm : PmmMemory) (mmap : List MultibootMmapEntry)
    (hpmm : 4 ≤ pmm.size) (hcalls : ∀ c ∈ calls, c.1 < 4294967296 ∧ c.2 < 4294967296) :
    Run.Needs .outOfBounds pmm.size (room (reserveInOrder ⟨fillPhysMmap mmap, 0⟩ calls).entries)
      (fillAndReserve pmm mmap calls) fun out =>
        out.Holds pmm.size (reserveInOrder ⟨fillPhysMmap mmap, 0⟩ calls) := by
  have hfill := PmmMemory.fillEntries_needs (m := pmm) mmap [] (by simp) hpmm
  refine hfill.bind ?_ fun hfit out hout => ?_
  · have := (length_reserveInOrder (g := ⟨fillPhysMmap mmap, 0⟩) hcalls).1
    simp only [room, List.nil_append] at *
    omega
  · exact reserveCallsInMemory_needs ⟨hout.1, hout.2, rfl⟩ hfit hcalls

/-- After a successful initialisation the memory holds the map of the model, if it fits. -/
theorem fillAndReserve_of_reserveAll {kernel : KernelImage} {mbi : MultibootInfo}
    {pmmAddr pmmSize : ℕ} {init : PhysMemMapInit}
    (h : reserveAll kernel mbi pmmAddr pmmSize = some init) (pmm : PmmMemory)
    (hcalls : ∀ c ∈ initCalls kernel mbi pmmAddr pmmSize, c.1 < 4294967296 ∧ c.2 < 4294967296)
    (hfit : room init.physMemMap ≤ pmm.size) :
    ∃ s, fillAndReserve pmm mbi.mmap (initCalls kernel mbi pmmAddr pmmSize) = .ok s ∧
      s.pmm.Holds init.physMemMap := by
  have hmap := physMemMap_of_reserveAll h
  have hpmm : 4 ≤ pmm.size := by
    unfold room at hfit
    omega
  obtain ⟨s, hs, hholds⟩ := (fillAndReserve_needs pmm mbi.mmap hpmm hcalls).fits (hmap ▸ hfit)
  exact ⟨s, hs, hmap ▸ hholds.entries⟩

end Runs

/-! ## How many entries there are -/

/-- `nb_entries` of `phys_mem_map_size`. -/
def nbEntries (mbi : MultibootInfo) : ℕ :=
  Word32.mul (Word32.add (Word32.add (mbi.mmapLength / 24) 2) (if mbi.hasMods then 1 else 0)) 3

/-- The entries that `mmap_for_each` visits from the address `p` on, when each of them has a size
of at least 20 and `mmap_next` does not wrap. -/
def Visits (stop : ℕ) : ℕ → List MultibootMmapEntry → Prop
  | p, [] => stop ≤ p
  | p, e :: es =>
    p < stop ∧ 20 ≤ e.size ∧ p + e.size + 4 < 4294967296 ∧ Visits stop (p + e.size + 4) es

/-- An initialisation: a multiboot map of a given length, as it is visited after the sorting, with
or without a module, the memory of the map in the size of `phys_mem_map_size`, and the calls of
`reserve_region`. The size `0` ends the initialisation before anything is written. -/
structure Initialises (mmapLength : ℕ) (hasMods : Bool) (mbi : MultibootInfo) (pmm : PmmMemory)
    (calls : List (ℕ × ℕ)) : Prop where
  mmapLength_eq : mbi.mmapLength = mmapLength
  hasMods_eq : mbi.hasMods = hasMods
  mmapAddr_lt : mbi.mmapAddr < 4294967296
  visits : Visits (Word32.add mbi.mmapAddr mbi.mmapLength) mbi.mmapAddr mbi.mmap
  size_eq : pmm.size = physMemMapSize mbi
  size_ne : physMemMapSize mbi ≠ 0
  calls_length : calls.length ≤ if hasMods then 3 else 2
  calls_lt : ∀ c ∈ calls, c.1 < 4294967296 ∧ c.2 < 4294967296

/-- Entries are at least 24 bytes apart. -/
theorem Visits.length_lt {stop p : ℕ} {es : List MultibootMmapEntry} (h : Visits stop p es) :
    (p < 4294967296 → p + 24 * es.length < 4294967296) ∧
      (es ≠ [] → p + 24 * es.length < stop + 24) := by
  induction es generalizing p with
  | nil => simp
  | cons e es ih =>
    obtain ⟨hlt, hsize, hnext, hrest⟩ := h
    obtain ⟨hword, hstop⟩ := ih hrest
    rw [List.length_cons]
    refine ⟨fun _ => by have := hword hnext; omega, fun _ => ?_⟩
    by_cases hes : es = []
    · subst hes
      simp only [List.length_nil]
      omega
    · have := hstop hes
      omega

/-- Entries of the least size from an address on. -/
theorem visits_of_size {stop p : ℕ} {es : List MultibootMmapEntry} (hsize : ∀ e ∈ es, e.size = 20)
    (hword : p + 24 * es.length < 4294967296) (hlast : es ≠ [] → p + 24 * es.length < stop + 24)
    (hstop : stop ≤ p + 24 * es.length) : Visits stop p es := by
  induction es generalizing p with
  | nil => exact hstop
  | cons e es ih =>
    have he := hsize e (List.mem_cons_self ..)
    have hp := hlast (List.cons_ne_nil _ _)
    simp only [List.length_cons] at *
    refine ⟨by omega, by omega, by omega, ?_⟩
    refine ih (fun e he => hsize e (List.mem_cons_of_mem _ he)) (by omega) (fun _ => by omega)
      (by omega)

section Sizes

variable {mmapLength : ℕ} {hasMods : Bool} {mbi : MultibootInfo} {pmm : PmmMemory}
  {calls : List (ℕ × ℕ)}

theorem nbEntries_eq (h : mbi.mmapLength < 4294967296) :
    nbEntries mbi = 3 * (mbi.mmapLength / 24 + if mbi.hasMods then 3 else 2) := by
  unfold nbEntries Word32.mul Word32.add Word32.wrap
  split_ifs <;> omega

theorem physMemMapSize_mod (h : mbi.mmapLength < 4294967296) :
    physMemMapSize mbi =
      (4 + 36 * (mbi.mmapLength / 24 + if mbi.hasMods then 3 else 2)) % 4294967296 := by
  have hsize : physMemMapSize mbi = Word32.add 4 (Word32.mul (nbEntries mbi) 12) := rfl
  rw [hsize, nbEntries_eq h]
  unfold Word32.mul Word32.add Word32.wrap
  split_ifs <;> omega

theorem rooms_eq (hasMods : Bool) :
    (if hasMods then 3 else 2) = 2 + (if hasMods then 1 else 0) ∧
      (if hasMods then 1 else 0) ≤ 1 := by
  cases hasMods <;> decide

/-- Up to 119304645 entries, with the one for the module, the size does not wrap or wraps to
`0`. -/
theorem physMemMapSize_of_le (h : mbi.mmapLength < 4294967296)
    (hle : mbi.mmapLength / 24 + (if mbi.hasMods then 1 else 0) ≤ 119304645)
    (hne : physMemMapSize mbi ≠ 0) :
    physMemMapSize mbi = 4 + 36 * (mbi.mmapLength / 24 + if mbi.hasMods then 3 else 2) := by
  have hrooms := rooms_eq mbi.hasMods
  rw [physMemMapSize_mod h] at hne ⊢
  rcases hle.lt_or_eq with hlt | heq
  · exact Nat.mod_eq_of_lt (by omega)
  · rw [show mbi.mmapLength / 24 + (if mbi.hasMods then 3 else 2) = 119304647 by omega] at hne
    exact absurd rfl hne

/-- With more entries the size wraps. -/
theorem physMemMapSize_wrapped (h : mbi.mmapLength < 4294967296)
    (hwrap : 119304645 < mbi.mmapLength / 24 + if mbi.hasMods then 1 else 0) :
    physMemMapSize mbi =
        4 + 36 * (mbi.mmapLength / 24 + if mbi.hasMods then 3 else 2) - 4294967296 ∧
      4 ≤ physMemMapSize mbi := by
  have hrooms := rooms_eq mbi.hasMods
  have hmod : physMemMapSize mbi =
      4 + 36 * (mbi.mmapLength / 24 + if mbi.hasMods then 3 else 2) - 4294967296 := by
    rw [physMemMapSize_mod h]
    omega
  exact ⟨hmod, by omega⟩

theorem length_fillPhysMmap_le (mmap : List MultibootMmapEntry) :
    (fillPhysMmap mmap).length ≤ mmap.length := List.length_filterMap_le ..

/-- The number of entries of the map at the end, and at any time before. -/
theorem Initialises.length_le (h : Initialises mmapLength hasMods mbi pmm calls) :
    (reserveInOrder ⟨fillPhysMmap mbi.mmap, 0⟩ calls).entries.length ≤
      min ((mmapLength + 23) / 24) 178956970 + 2 * if hasMods then 3 else 2 := by
  have hcalls := (length_reserveInOrder (g := ⟨fillPhysMmap mbi.mmap, 0⟩) h.calls_lt).2
  have hfill := length_fillPhysMmap_le mbi.mmap
  obtain ⟨hword, hstop⟩ := h.visits.length_lt
  have := hword h.mmapAddr_lt
  have hlen := h.calls_length
  have hadd : Word32.add mbi.mmapAddr mbi.mmapLength ≤ mbi.mmapAddr + mbi.mmapLength :=
    Nat.mod_le ..
  rw [h.mmapLength_eq] at hadd hstop
  by_cases hes : mbi.mmap = []
  · have hzero : mbi.mmap.length = 0 := by rw [hes, List.length_nil]
    simp only at hcalls
    omega
  · have := hstop hes
    simp only at hcalls
    omega

/-- A map of `k` entries up to `a`, and an available entry behind them. -/
def EndsFree (pmm : PhysMmap) (k a stop : ℕ) : Prop :=
  ∃ l, pmm = l ++ [⟨a, stop - a, .available⟩] ∧ l.length = k ∧ ∀ q ∈ l, q.addr + q.len ≤ a

theorem EndsFree.length_eq {pmm : PhysMmap} {k a stop : ℕ} (h : EndsFree pmm k a stop) :
    pmm.length = k + 1 := by
  obtain ⟨l, rfl, rfl, -⟩ := h
  simp

/-- A reservation inside the last entry cuts it in three. -/
theorem EndsFree.reserveRegion {g : PhysMemMap} {k a stop : ℕ} (h : EndsFree g.entries k a stop)
    (addr len : ℕ) (hnb : g.nbReserved < maxReserved) (hlo : a < addr) (hlen : 0 < len)
    (hhi : addr + len < stop) (hstop : stop < 4294967296) :
    ∃ g', Ahos.reserveRegion g addr len = (true, g') ∧ g'.nbReserved = g.nbReserved + 1 ∧
      EndsFree g'.entries (k + 2) (addr + len) stop := by
  obtain ⟨l, hg, hk, hl⟩ := h
  have hadd : Word32.add addr len = addr + len := Word32.add_of_lt (by omega)
  have hnot : ∀ q ∈ l, ¬ q.Fits addr len := by
    rintro q hq ⟨-, -, hfit⟩
    have := hl q hq
    have hend : q.endAddr ≤ q.addr + q.len := Nat.mod_le ..
    omega
  have hloop := reserveWithin_carve (r := []) (e := ⟨a, stop - a, .available⟩) hnot rfl hlo.le
    (by simp only; omega) hlen (by simp only; omega)
  rw [List.append_nil, ← hg] at hloop
  refine ⟨_, by rw [reserveRegion_eq, reserveWithin_sound hloop, if_neg hnb.ne], rfl,
    l ++ [⟨a, addr - a, .available⟩, ⟨addr, len, .reserved⟩], ?_, by simp [hk], fun q hq => ?_⟩
  · rw [carve, if_pos hlo, if_pos (by simp only; omega),
      show a + (stop - a) - (addr + len) = stop - (addr + len) by omega]
    simp
  · simp only [List.mem_append, List.mem_cons, List.not_mem_nil, or_false] at hq
    rcases hq with hq | rfl | rfl
    · have := hl q hq
      omega
    · simp only
      omega
    · exact le_rfl

/-- The entries that a map of `n + 1` entries shows: bytes in low memory, and a last region. -/
def crowdedMmap (n : ℕ) : List MultibootMmapEntry :=
  (List.range n).map (fun i => ⟨20, i, 1, 2⟩) ++ [⟨20, 0xc000000, 0x10000000, 1⟩]

/-- Reservations in the last region. -/
def crowdedCalls (hasMods : Bool) : List (ℕ × ℕ) :=
  [(0xd000000, 0x1000), (0xe000000, 0x1000)] ++ if hasMods then [(0xf000000, 0x1000)] else []

theorem lt_crowdedCalls {hasMods : Bool} :
    ∀ c ∈ crowdedCalls hasMods, c.1 < 4294967296 ∧ c.2 < 4294967296 := by
  cases hasMods <;> simp [crowdedCalls]

theorem mem_crowdedMmap {n : ℕ} {e : MultibootMmapEntry} :
    e ∈ crowdedMmap n ↔ (∃ i < n, e = ⟨20, i, 1, 2⟩) ∨ e = ⟨20, 0xc000000, 0x10000000, 1⟩ := by
  simp [crowdedMmap, eq_comm]

theorem endsFree_crowdedMmap {n : ℕ} (hn : n ≤ 178956970) :
    EndsFree (fillPhysMmap (crowdedMmap n)) n 0xc000000 0x1c000000 := by
  refine ⟨(List.range n).map fun i => lowEntry ⟨20, i, 1, 2⟩, ?_, by simp, fun q hq => ?_⟩
  · rw [fillPhysMmap_of_lt, crowdedMmap, List.map_append, List.map_map]
    · rfl
    · intro e he
      rcases mem_crowdedMmap.mp he with ⟨i, hi, rfl⟩ | rfl <;> simp only <;> omega
  · simp only [List.mem_map, List.mem_range] at hq
    obtain ⟨i, hi, rfl⟩ := hq
    rw [lowEntry, segLen_eq (by simp only; omega), if_pos (by simp only; omega)]
    simp only
    rw [and_ffffffff (by omega)]
    omega

/-- Every reservation cuts the last region. -/
theorem length_crowded {n : ℕ} (hn : n ≤ 178956970) (hasMods : Bool) :
    (reserveInOrder ⟨fillPhysMmap (crowdedMmap n), 0⟩ (crowdedCalls hasMods)).entries.length =
      n + 1 + 2 * if hasMods then 3 else 2 := by
  obtain ⟨g₁, hfirst, hnb₁, h₁⟩ := (endsFree_crowdedMmap hn).reserveRegion
    (g := ⟨fillPhysMmap (crowdedMmap n), 0⟩) 0xd000000 0x1000 (show 0 < 3 by omega) (by omega)
    (by omega) (by omega) (by omega)
  obtain ⟨g₂, hsecond, hnb₂, h₂⟩ := h₁.reserveRegion 0xe000000 0x1000
    (by rw [hnb₁]; exact show 1 < 3 by omega) (by omega) (by omega) (by omega) (by omega)
  cases hasMods with
  | false =>
    rw [crowdedCalls, if_neg Bool.false_ne_true, List.append_nil, reserveInOrder, hfirst]
    simp only
    rw [reserveInOrder, hsecond]
    simp only [reserveInOrder, h₂.length_eq, if_neg Bool.false_ne_true]
  | true =>
    obtain ⟨g₃, hthird, -, h₃⟩ := h₂.reserveRegion 0xf000000 0x1000
      (by rw [hnb₂, hnb₁]; exact show 2 < 3 by omega) (by omega) (by omega) (by omega) (by omega)
    rw [crowdedCalls, if_pos rfl, List.cons_append, reserveInOrder, hfirst]
    simp only [List.cons_append, List.nil_append]
    rw [reserveInOrder, hsecond]
    simp only
    rw [reserveInOrder, hthird]
    simp only [reserveInOrder, h₃.length_eq, if_true]

/-- A map of `n + 1` entries of 24 bytes from `0` on. -/
def crowdedInfo (mmapLength n : ℕ) (hasMods : Bool) : MultibootInfo where
  addr := 0
  flags := if hasMods then 0x48 else 0x40
  modsCount := 1
  modsAddr := 0
  mmapLength := mmapLength
  mmapAddr := 0
  mmap := crowdedMmap n
  mod := ⟨0xf000000, 0xf001000⟩

theorem hasMods_crowdedInfo {mmapLength n : ℕ} {hasMods : Bool} :
    (crowdedInfo mmapLength n hasMods).hasMods = hasMods := by
  cases hasMods <;> simp [MultibootInfo.hasMods, crowdedInfo, multibootInfoMods]

theorem mmapLength_crowdedInfo {mmapLength n : ℕ} {hasMods : Bool} :
    (crowdedInfo mmapLength n hasMods).mmapLength = mmapLength := rfl

theorem mmap_crowdedInfo {mmapLength n : ℕ} {hasMods : Bool} :
    (crowdedInfo mmapLength n hasMods).mmap = crowdedMmap n := rfl

/-- The map and the reservations do not fit into less memory. -/
theorem fillAndReserve_crowded {n : ℕ} (hasMods : Bool) (hn : n ≤ 178956970) (pmm : PmmMemory)
    (hpmm : 4 ≤ pmm.size) (hsize : pmm.size < 4 + 12 * (n + 1 + 2 * if hasMods then 3 else 2)) :
    fillAndReserve pmm (crowdedMmap n) (crowdedCalls hasMods) = .error .outOfBounds := by
  refine (fillAndReserve_needs pmm (crowdedMmap n) hpmm lt_crowdedCalls).outgrows ?_
  rw [PmmMemory.room, length_crowded hn]
  exact hsize

theorem size_crowdedMmap {n : ℕ} : ∀ e ∈ crowdedMmap n, e.size = 20 := by
  intro e he
  rcases mem_crowdedMmap.mp he with ⟨i, -, rfl⟩ | rfl <;> rfl

/-- The map of the greatest number of entries can be visited. -/
theorem initialises_crowded {mmapLength n : ℕ} (hasMods : Bool) (pmm : PmmMemory)
    (hn : n = (mmapLength + 23) / 24 - 1) (hpos : 0 < mmapLength)
    (hlt : mmapLength / 24 < 178956970)
    (hsize : pmm.size = physMemMapSize (crowdedInfo mmapLength n hasMods))
    (hne : physMemMapSize (crowdedInfo mmapLength n hasMods) ≠ 0) :
    Initialises mmapLength hasMods (crowdedInfo mmapLength n hasMods) pmm
      (crowdedCalls hasMods) where
  mmapLength_eq := rfl
  hasMods_eq := hasMods_crowdedInfo
  mmapAddr_lt := by simp [crowdedInfo]
  visits := by
    have hadd : Word32.add 0 mmapLength = mmapLength := by
      rw [Word32.add_of_lt (by omega), Nat.zero_add]
    have hlen : (crowdedMmap n).length = n + 1 := by simp [crowdedMmap]
    simp only [crowdedInfo, hadd]
    exact visits_of_size size_crowdedMmap (by omega) (fun _ => by omega) (by omega)
  size_eq := hsize
  size_ne := hne
  calls_length := by cases hasMods <;> decide
  calls_lt := lt_crowdedCalls

end Sizes

/-- A multiboot map of `n + 1` entries: 4 MB of memory behind the first megabyte, and reserved bytes
above it. -/
def largeInfo (n : ℕ) : MultibootInfo where
  addr := 0x9000
  flags := 0x40
  modsCount := 0
  modsAddr := 0
  mmapLength := 24 * (n + 1)
  mmapAddr := 0x1000000
  mmap := ⟨20, 0x100000, 0x400000, 1⟩ :: (List.range n).map fun i => ⟨20, 0x10000000 + i, 1, 2⟩
  mod := ⟨0, 0⟩

section Large

variable {n : ℕ}

theorem mem_largeInfo {e : MultibootMmapEntry} :
    e ∈ (largeInfo n).mmap ↔
      e = ⟨20, 0x100000, 0x400000, 1⟩ ∨ ∃ i < n, e = ⟨20, 0x10000000 + i, 1, 2⟩ := by
  simp [largeInfo, eq_comm]

theorem length_largeInfo : (largeInfo n).mmap.length = n + 1 := by simp [largeInfo]

theorem sortMultibootMmap_largeInfo : sortMultibootMmap (largeInfo n) = largeInfo n := by
  have hsorted : (largeInfo n).mmap.Pairwise fun e f => e.addr ≤ f.addr := by
    refine List.pairwise_cons.mpr ⟨fun e he => ?_, ?_⟩
    · obtain ⟨i, -, rfl⟩ := List.mem_map.mp he
      simp only
      omega
    · rw [List.pairwise_map]
      exact List.pairwise_lt_range.imp fun h => Nat.add_le_add_left h.le _
  rw [sortMultibootMmap, BubbleSort.sort_of_sorted _ _ hsorted]

theorem length_fillPhysMmap_largeInfo (hn : n < 0x10000000) :
    (fillPhysMmap (largeInfo n).mmap).length = n + 1 := by
  rw [fillPhysMmap_of_lt, List.length_map, length_largeInfo]
  intro e he
  rcases mem_largeInfo.mp he with rfl | ⟨i, hi, rfl⟩ <;> simp only <;> omega

theorem visits_largeInfo (hn : 24 * (n + 1) ≤ 0xf0000000) :
    Visits (Word32.add (largeInfo n).mmapAddr (largeInfo n).mmapLength) (largeInfo n).mmapAddr
      (largeInfo n).mmap := by
  have hstop : Word32.add (largeInfo n).mmapAddr (largeInfo n).mmapLength =
      0x1000000 + 24 * (n + 1) := Word32.add_of_lt (by simp only [largeInfo]; omega)
  have haddr : (largeInfo n).mmapAddr = 0x1000000 := rfl
  rw [hstop, haddr]
  refine visits_of_size (fun e he => ?_) (by rw [length_largeInfo]; omega)
    (fun _ => by rw [length_largeInfo]; omega) (by rw [length_largeInfo])
  rcases mem_largeInfo.mp he with rfl | ⟨i, -, rfl⟩ <;> rfl

theorem hasMods_largeInfo : (largeInfo n).hasMods = false := by
  simp [MultibootInfo.hasMods, largeInfo, multibootInfoMods]

theorem identifyMultibootRegions_largeInfo :
    identifyMultibootRegions (largeInfo n) =
      [⟨0x9000, 120, .other 0⟩, ⟨0x1000000, 24 * (n + 1), .other 0⟩] := by
  rw [identifyMultibootRegions, hasMods_largeInfo, if_neg Bool.false_ne_true, List.append_nil,
    sortPhysMmap, BubbleSort.sort_of_sorted]
  · rfl
  · simp [largeInfo]

/-- The map is placed behind the kernel, in the first entry. -/
theorem findPmmLocation_largeInfo :
    findPmmLocation ⟨0x100000, 0x200000⟩ (largeInfo n) (identifyMultibootRegions (largeInfo n)) 36 =
      (some 0x201000, largeInfo n) := by
  have hinfo : avoidRegion 36 0x201000 ⟨0x9000, 120, .other 0⟩ = 0x201000 := by decide
  have hmap : avoidRegion 36 0x201000 ⟨0x1000000, 24 * (n + 1), .other 0⟩ = 0x201000 := by
    have hapart : collides 0x201000 36 0x1000000 (24 * (n + 1)) = false := by
      simp [collides, Word32.add, Word32.wrap]
    exact avoidRegion_of_apart hapart
  have hplace : pmmCandidate ⟨0x100000, 0x200000⟩ (identifyMultibootRegions (largeInfo n)) 36
      0x100000 = 0x201000 := by
    rw [identifyMultibootRegions_largeInfo, pmmCandidate]
    have hstart : pageAlign (Word32.add 0x200000 1) = 0x201000 := by decide
    simp only [hstart, List.foldl_cons, List.foldl_nil]
    rw [if_neg (by omega), hinfo, hmap]
  rw [findPmmLocation, if_neg (by omega), sortMultibootMmap_largeInfo]
  rcases findPmmSegment_cons ⟨0x100000, 0x200000⟩ (identifyMultibootRegions (largeInfo n)) 36
    ⟨20, 0x100000, 0x400000, 1⟩ ((List.range n).map fun i => ⟨20, 0x10000000 + i, 1, 2⟩)
    with ⟨hnot, -⟩ | ⟨-, hseg⟩
  · exact absurd ⟨rfl, le_rfl, by simp only; omega⟩ hnot
  · rw [hplace, if_pos (by decide)] at hseg
    exact Prod.ext hseg rfl

/-- The map does not fit into a smaller memory. -/
theorem fillAndReserve_largeInfo (hn : n < 0x10000000) (pmm : PmmMemory) (hpmm : 4 ≤ pmm.size)
    (hsize : pmm.size < 4 + 12 * (n + 1)) {calls : List (ℕ × ℕ)}
    (hcalls : ∀ c ∈ calls, c.1 < 4294967296 ∧ c.2 < 4294967296) :
    fillAndReserve pmm (largeInfo n).mmap calls = .error .outOfBounds := by
  refine (fillAndReserve_needs pmm _ hpmm hcalls).outgrows ?_
  have := (length_reserveInOrder (g := ⟨fillPhysMmap (largeInfo n).mmap, 0⟩) hcalls).1
  simp only [length_fillPhysMmap_largeInfo hn] at this
  simp only [PmmMemory.room]
  omega

end Large

end Ahos
