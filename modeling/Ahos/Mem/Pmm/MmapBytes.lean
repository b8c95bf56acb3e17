import Ahos.Mem.Pmm.Defs
import Mathlib.Data.Nat.Digits.Defs

/-!
# The multiboot map in memory

The memory map of the boot loader as bytes. An entry begins with a structure of 24 bytes, and its
field `size` says how far behind this field the next entry begins: `mmap_next` follows it, while
`sort_multiboot_mmap` counts the entries by dividing by 24, and its swaps exchange the structures
without the bytes behind them.
-/

namespace Ahos

/-! ## Words of several bytes -/

/-- The low `n` bytes of a value, the lowest first. -/
def leBytes : ℕ → ℕ → List ℕ
  | 0, _ => []
  | n + 1, v => v % 256 :: leBytes n (v / 256)

@[simp] theorem length_leBytes (n v : ℕ) : (leBytes n v).length = n := by
  induction n generalizing v with
  | zero => rfl
  | succ n ih => rw [leBytes, List.length_cons, ih]

/-- The bytes of a value that fits give the value back. -/
theorem ofDigits_leBytes {n v : ℕ} (h : v < 256 ^ n) : Nat.ofDigits 256 (leBytes n v) = v := by
  induction n generalizing v with
  | zero =>
    rw [pow_zero] at h
    rw [leBytes, Nat.ofDigits_nil]
    omega
  | succ n ih =>
    rw [pow_succ] at h
    rw [leBytes, Nat.ofDigits_cons, ih (by omega), Nat.mod_add_div]

/-! ## Memory -/

/-- The `mmap_length` bytes of the map from `mmap_addr` on. -/
structure MmapMemory where
  mmapAddr : ℕ
  bytes : List ℕ
deriving DecidableEq, Repr

namespace MmapMemory

/-- Reading `n` bytes. -/
def read (m : MmapMemory) (p n : ℕ) : Outcome (List ℕ) :=
  if m.mmapAddr ≤ p ∧ p + n ≤ m.mmapAddr + m.bytes.length then
    .ok ((m.bytes.drop (p - m.mmapAddr)).take n)
  else .error .outOfBounds

/-- Writing bytes. -/
def write (m : MmapMemory) (p : ℕ) (bs : List ℕ) : Outcome MmapMemory :=
  if m.mmapAddr ≤ p ∧ p + bs.length ≤ m.mmapAddr + m.bytes.length then
    .ok { m with
      bytes := m.bytes.take (p - m.mmapAddr) ++ bs ++ m.bytes.drop (p - m.mmapAddr + bs.length) }
  else .error .outOfBounds

/-- Reading a field of `n` bytes. -/
def field (m : MmapMemory) (p offset n : ℕ) : Outcome ℕ := do
  let bs ← m.read (p + offset) n
  return Nat.ofDigits 256 bs

/-- `mmap->size`. -/
def size (m : MmapMemory) (p : ℕ) : Outcome ℕ := m.field p 0 4

/-- `mmap->addr`. -/
def addr (m : MmapMemory) (p : ℕ) : Outcome ℕ := m.field p 4 8

/-- `mmap->len`. -/
def len (m : MmapMemory) (p : ℕ) : Outcome ℕ := m.field p 12 8

/-- `mmap->type`. -/
def type (m : MmapMemory) (p : ℕ) : Outcome ℕ := m.field p 20 4

end MmapMemory

/-! ## The code -/

/-- `mmap_next`. -/
def mmapNext (m : MmapMemory) (mmap : ℕ) : Outcome ℕ := do
  let size ← m.size mmap
  return Word32.add (Word32.add mmap size) 4

/-- `mmap_swap`. -/
def mmapSwap (m : MmapMemory) (a b : ℕ) : Outcome MmapMemory := do
  let swap ← m.read a 24
  let next ← m.read b 24
  let m ← m.write a next
  m.write b swap

/-- The inner loop of `sort_multiboot_mmap`: the number of rounds that are left, the counter `i` and
`last_swap`. It returns the new `last_swap`. -/
def sortMmapPass : ℕ → ℕ → ℕ → MmapMemory → ℕ → Outcome (MmapMemory × ℕ)
  | 0, _, lastSwap, m, _ => .ok (m, lastSwap)
  | k + 1, i, lastSwap, m, mmap => do
    let next ← mmapNext m mmap
    let a ← m.addr mmap
    let b ← m.addr next
    if a > b then
      let m ← mmapSwap m mmap next
      let mmap ← mmapNext m mmap
      sortMmapPass k (i + 1) (i + 1) m mmap
    else
      sortMmapPass k (i + 1) lastSwap m next

/-- The outer loop of `sort_multiboot_mmap`. The first argument bounds the number of passes: every
pass leaves fewer elements than the one before. -/
def sortMmapLoop : ℕ → ℕ → MmapMemory → Outcome MmapMemory
  | _, 0, m => .ok m
  | 0, _ + 1, _ => .error .loops
  | fuel + 1, nbElts + 1, m => do
    let (m, lastSwap) ← sortMmapPass nbElts 0 0 m m.mmapAddr
    sortMmapLoop fuel lastSwap m

/-- `sort_multiboot_mmap`. -/
def sortMmapBytes (m : MmapMemory) : Outcome MmapMemory :=
  sortMmapLoop (m.bytes.length / 24) (m.bytes.length / 24) m

/-- `mmap_for_each` from the entry at `mmap` on: the entries that it visits. The first argument
bounds their number. -/
def mmapForEach : ℕ → MmapMemory → ℕ → Outcome (List MultibootMmapEntry)
  | 0, m, mmap =>
    if mmap < Word32.add m.mmapAddr m.bytes.length then .error .loops else .ok []
  | fuel + 1, m, mmap =>
    if mmap < Word32.add m.mmapAddr m.bytes.length then do
      let size ← m.size mmap
      let addr ← m.addr mmap
      let len ← m.len mmap
      let type ← m.type mmap
      let next ← mmapNext m mmap
      let rest ← mmapForEach fuel m next
      return ⟨size, addr, len, type⟩ :: rest
    else .ok []

/-! ## The format -/

/-- `multiboot_memory_map_t` in memory. -/
def MultibootMmapEntry.toBytes (e : MultibootMmapEntry) : List ℕ :=
  leBytes 4 e.size ++ leBytes 8 e.addr ++ leBytes 8 e.len ++ leBytes 4 e.type

theorem MultibootMmapEntry.length_toBytes (e : MultibootMmapEntry) : e.toBytes.length = 24 := by
  simp [MultibootMmapEntry.toBytes]

/-- An entry with the bytes behind its structure: its size accounts for all of them. -/
structure MultibootMmapEntry.Padded (e : MultibootMmapEntry) (padding : List ℕ) : Prop where
  size_eq : e.size + 4 = 24 + padding.length
  size_lt : e.size < 256 ^ 4
  addr_lt : e.addr < 256 ^ 8
  len_lt : e.len < 256 ^ 8
  type_lt : e.type < 256 ^ 4

/-- The bytes of a map: entries, each followed by its padding. -/
def mapBytes : List MultibootMmapEntry → List (List ℕ) → List ℕ
  | e :: es, padding :: paddings => e.toBytes ++ padding ++ mapBytes es paddings
  | _, _ => []

/-- The entries of a map fit their paddings. -/
abbrev Formatted (es : List MultibootMmapEntry) (paddings : List (List ℕ)) : Prop :=
  List.Forall₂ MultibootMmapEntry.Padded es paddings

/-! ## Access to an entry -/

section Access

variable {m : MmapMemory} {p n : ℕ} {before bs after : List ℕ} {e : MultibootMmapEntry}

theorem MmapMemory.read_eq (hbytes : m.bytes = before ++ (bs ++ after))
    (hp : p = m.mmapAddr + before.length) (hn : bs.length = n) : m.read p n = .ok bs := by
  unfold MmapMemory.read
  subst hn hp
  rw [if_pos ⟨by omega, by simp only [hbytes, List.length_append]; omega⟩, hbytes,
    Nat.add_sub_cancel_left, List.drop_left, List.take_left]

theorem MmapMemory.write_eq {bs' : List ℕ} (hbytes : m.bytes = before ++ (bs ++ after))
    (hp : p = m.mmapAddr + before.length) (hlen : bs'.length = bs.length) :
    m.write p bs' = .ok { m with bytes := before ++ (bs' ++ after) } := by
  unfold MmapMemory.write
  subst hp
  rw [if_pos ⟨by omega, by simp only [hbytes, List.length_append]; omega⟩, hbytes,
    Nat.add_sub_cancel_left, List.take_left, ← List.drop_drop, List.drop_left, hlen,
    List.drop_left, List.append_assoc]

/-- Nothing can be read behind the last byte. -/
theorem MmapMemory.field_outside {offset : ℕ} (hn : 0 < n)
    (hp : m.mmapAddr + m.bytes.length ≤ p) : m.field p offset n = .error .outOfBounds := by
  unfold MmapMemory.field MmapMemory.read
  rw [if_neg (by omega)]
  rfl

/-- The fields of an entry. -/
theorem MmapMemory.fields {padding : List ℕ} (he : e.Padded padding)
    (hbytes : m.bytes = before ++ (e.toBytes ++ after)) (hp : p = m.mmapAddr + before.length) :
    m.size p = .ok e.size ∧ m.addr p = .ok e.addr ∧ m.len p = .ok e.len ∧
      m.type p = .ok e.type := by
  have hfield : ∀ (before' : List ℕ) {offset n v : ℕ} {after' : List ℕ}, v < 256 ^ n →
      m.bytes = before' ++ (leBytes n v ++ after') → before'.length = before.length + offset →
      m.field p offset n = .ok v := by
    intro before' offset n v after' hv hb hl
    rw [MmapMemory.field, MmapMemory.read_eq hb (by omega) (length_leBytes n v), Run.ok_bind,
      ofDigits_leBytes hv]
    rfl
  rw [MultibootMmapEntry.toBytes] at hbytes
  refine ⟨hfield before he.size_lt (by simpa using hbytes) rfl, ?_, ?_, ?_⟩
  · exact hfield (before ++ leBytes 4 e.size) he.addr_lt (by simpa using hbytes) (by simp)
  · exact hfield (before ++ (leBytes 4 e.size ++ leBytes 8 e.addr)) he.len_lt
      (by simpa using hbytes) (by simp)
  · exact hfield (before ++ (leBytes 4 e.size ++ (leBytes 8 e.addr ++ leBytes 8 e.len))) he.type_lt
      (by simpa using hbytes) (by simp)

/-- `mmap_next` goes behind the padding. -/
theorem mmapNext_eq {padding : List ℕ} (he : e.Padded padding)
    (hbytes : m.bytes = before ++ (e.toBytes ++ after)) (hp : p = m.mmapAddr + before.length) :
    mmapNext m p = .ok (Word32.add p (24 + padding.length)) := by
  rw [mmapNext, (MmapMemory.fields he hbytes hp).1, Run.ok_bind, Run.pure_eq, ← he.size_eq]
  congr 1
  unfold Word32.add Word32.wrap
  omega

/-- The next entry lies behind the padding. -/
theorem mmapNext_entry {padding : List ℕ} (he : e.Padded padding)
    (hbytes : m.bytes = before ++ (e.toBytes ++ after))
    (hlt : m.mmapAddr + before.length + (24 + padding.length) < 4294967296) :
    mmapNext m (m.mmapAddr + before.length) =
      .ok (m.mmapAddr + (before ++ (e.toBytes ++ padding)).length) := by
  rw [mmapNext_eq he hbytes rfl, Word32.add_of_lt hlt, List.length_append, List.length_append,
    MultibootMmapEntry.length_toBytes, Nat.add_assoc]

/-- `mmap_swap` exchanges two structures, and leaves what lies between them. -/
theorem mmapSwap_eq {x y mid : List ℕ} {a b : ℕ} (hx : x.length = 24) (hy : y.length = 24)
    (hbytes : m.bytes = before ++ (x ++ (mid ++ (y ++ after))))
    (ha : a = m.mmapAddr + before.length)
    (hb : b = m.mmapAddr + (before ++ (x ++ mid)).length) :
    mmapSwap m a b = .ok { m with bytes := before ++ (y ++ (mid ++ (x ++ after))) } := by
  have hreadA := MmapMemory.read_eq hbytes ha hx
  have hreadB := MmapMemory.read_eq
    (show m.bytes = (before ++ (x ++ mid)) ++ (y ++ after) by simp [hbytes]) hb hy
  have hwriteA := MmapMemory.write_eq hbytes ha (hy.trans hx.symm)
  set m' : MmapMemory := { m with bytes := before ++ (y ++ (mid ++ (y ++ after))) } with hm'
  have hwriteB := MmapMemory.write_eq
    (show m'.bytes = (before ++ (y ++ mid)) ++ (y ++ after) by simp [hm'])
    (show b = m'.mmapAddr + (before ++ (y ++ mid)).length by
      rw [hb, hm']
      simp only [List.length_append]
      omega)
    (hx.trans hy.symm)
  rw [mmapSwap, hreadA, Run.ok_bind, hreadB, Run.ok_bind, hwriteA, Run.ok_bind, hwriteB]
  simp [hm']

end Access

/-! ## Sorting -/

section Passes

variable {m : MmapMemory} {before : List ℕ} {e : MultibootMmapEntry}
  {es : List MultibootMmapEntry} {padding : List ℕ} {paddings : List (List ℕ)}

/-- Entries that are out of order have the same size. -/
def SameSizeSwaps (es : List MultibootMmapEntry) : Prop :=
  es.Pairwise fun x y => y.addr < x.addr → x.size = y.size

/-- One round of the inner loop: two entries in a row are compared. Entries of the same size are
swapped without their paddings. -/
theorem sortMmapPass_step {k : ℕ} (i last : ℕ) {b : MultibootMmapEntry} {padding' : List ℕ}
    (hbytes : m.bytes = before ++ mapBytes (e :: b :: es) (padding :: padding' :: paddings))
    (he : e.Padded padding) (hb : b.Padded padding') (hsize : b.addr < e.addr → e.size = b.size)
    (hend : m.mmapAddr + m.bytes.length ≤ 4294967296) :
    sortMmapPass (k + 1) i last m (m.mmapAddr + before.length) =
      if e.addr > b.addr then
        sortMmapPass k (i + 1) (i + 1)
          ⟨m.mmapAddr, (before ++ (b.toBytes ++ padding)) ++ mapBytes (e :: es) (padding' :: paddings)⟩
          (m.mmapAddr + (before ++ (b.toBytes ++ padding)).length)
      else
        sortMmapPass k (i + 1) last m (m.mmapAddr + (before ++ (e.toBytes ++ padding)).length) := by
  simp only [mapBytes, List.append_assoc] at hbytes
  have hlen : m.bytes.length = before.length + (24 + padding.length) + (24 + padding'.length) +
      (mapBytes es paddings).length := by
    rw [hbytes]
    simp only [List.length_append, MultibootMmapEntry.length_toBytes]
    omega
  have hbefore : ∀ x : MultibootMmapEntry, (before ++ (x.toBytes ++ padding)).length =
      before.length + (24 + padding.length) := fun x => by
    simp [MultibootMmapEntry.length_toBytes]
  have hbytes' : m.bytes = (before ++ (e.toBytes ++ padding)) ++
      (b.toBytes ++ (padding' ++ mapBytes es paddings)) := by simp [hbytes]
  obtain ⟨-, haddr, -, -⟩ := MmapMemory.fields he hbytes rfl
  obtain ⟨-, haddr', -, -⟩ := MmapMemory.fields hb hbytes' rfl
  rw [sortMmapPass, mmapNext_entry he hbytes (by omega), Run.ok_bind, haddr, Run.ok_bind, haddr',
    Run.ok_bind]
  split_ifs with hgt
  · have hb' : b.Padded padding := { hb with size_eq := by rw [← hsize hgt]; exact he.size_eq }
    have hswap := mmapSwap_eq (MultibootMmapEntry.length_toBytes e)
      (MultibootMmapEntry.length_toBytes b) hbytes rfl rfl
    rw [hswap, Run.ok_bind]
    set m' : MmapMemory := ⟨m.mmapAddr, before ++ (b.toBytes ++ (padding ++
      (e.toBytes ++ (padding' ++ mapBytes es paddings))))⟩
    have hnext : mmapNext m' (m.mmapAddr + before.length) =
        .ok (m.mmapAddr + (before ++ (b.toBytes ++ padding)).length) :=
      mmapNext_entry hb' rfl (show m.mmapAddr + _ + _ < _ by omega)
    rw [hnext, Run.ok_bind]
    simp [m', mapBytes]
  · rfl

theorem length_mapBytes (hform : Formatted es paddings) :
    (mapBytes es paddings).length = (paddings.map fun padding => 24 + padding.length).sum := by
  induction hform with
  | nil => rfl
  | cons _ _ ih =>
    simp only [mapBytes, List.length_append, MultibootMmapEntry.length_toBytes, ih, List.map_cons,
      List.sum_cons]

/-- The inner loop makes a pass over the entries, and leaves the paddings in their places. -/
theorem sortMmapPass_eq {k : ℕ} (i last : ℕ)
    (hbytes : m.bytes = before ++ mapBytes (e :: es) (padding :: paddings))
    (hform : Formatted (e :: es) (padding :: paddings)) (hsizes : SameSizeSwaps (e :: es))
    (hend : m.mmapAddr + m.bytes.length ≤ 4294967296) (hk : k ≤ es.length) :
    sortMmapPass k i last m (m.mmapAddr + before.length) =
        .ok (⟨m.mmapAddr, before ++ mapBytes
            (BubbleSort.pass MultibootMmapEntry.addr k i last (e :: es)).1 (padding :: paddings)⟩,
          (BubbleSort.pass MultibootMmapEntry.addr k i last (e :: es)).2) ∧
      Formatted (BubbleSort.pass MultibootMmapEntry.addr k i last (e :: es)).1
        (padding :: paddings) := by
  induction k generalizing i last m before e es padding paddings with
  | zero =>
    rw [sortMmapPass, BubbleSort.pass.eq_def, ← hbytes]
    exact ⟨rfl, hform⟩
  | succ k ih =>
    obtain - | ⟨he, hform⟩ := hform
    cases hform with
    | nil => simp at hk
    | @cons b padding' es paddings hb hform =>
      simp only [SameSizeSwaps, List.pairwise_cons, List.mem_cons, forall_eq_or_imp] at hsizes
      obtain ⟨⟨heb, hes⟩, hbs, hrest⟩ := hsizes
      rw [List.length_cons, Nat.add_le_add_iff_right] at hk
      rw [sortMmapPass_step i last hbytes he hb heb hend, BubbleSort.pass]
      have hmap : mapBytes (e :: b :: es) (padding :: padding' :: paddings) =
          e.toBytes ++ padding ++ mapBytes (b :: es) (padding' :: paddings) := rfl
      split_ifs with hgt
      · -- the paddings stay, and fit the sizes that have changed places
        have hb' : b.Padded padding := { hb with size_eq := by rw [← heb hgt]; exact he.size_eq }
        have he' : e.Padded padding' := { he with size_eq := by rw [heb hgt]; exact hb.size_eq }
        obtain ⟨hrun, hform'⟩ := ih (i + 1) (i + 1)
          (m := ⟨m.mmapAddr, (before ++ (b.toBytes ++ padding)) ++
            mapBytes (e :: es) (padding' :: paddings)⟩) rfl (.cons he' hform)
          (List.pairwise_cons.mpr ⟨hes, hrest⟩)
          (by
            rw [hbytes] at hend
            simp only [mapBytes, List.length_append, MultibootMmapEntry.length_toBytes] at hend ⊢
            omega) hk
        rw [hrun]
        exact ⟨by simp [mapBytes], .cons hb' hform'⟩
      · obtain ⟨hrun, hform'⟩ := ih (i + 1) last
          (show m.bytes = (before ++ (e.toBytes ++ padding)) ++
            mapBytes (b :: es) (padding' :: paddings) by simp [hbytes, hmap])
          (.cons hb hform) (List.pairwise_cons.mpr ⟨hbs, hrest⟩) hend hk
        rw [hrun]
        exact ⟨by simp [mapBytes], .cons he hform'⟩

/-- A pass with more rounds than there are entries reads behind the map. -/
theorem sortMmapPass_outside {k : ℕ} (i last : ℕ)
    (hbytes : m.bytes = before ++ mapBytes (e :: es) (padding :: paddings))
    (hform : Formatted (e :: es) (padding :: paddings)) (hsizes : SameSizeSwaps (e :: es))
    (hend : m.mmapAddr + m.bytes.length < 4294967296) (hk : es.length < k) :
    sortMmapPass k i last m (m.mmapAddr + before.length) = .error .outOfBounds := by
  induction k generalizing i last m before e es padding paddings with
  | zero => simp at hk
  | succ k ih =>
    obtain - | ⟨he, hform⟩ := hform
    cases hform with
    | nil =>
      -- the last entry has no next one
      simp only [mapBytes, List.append_assoc] at hbytes
      have hlen : m.bytes.length = before.length + (24 + padding.length) := by
        rw [hbytes]
        simp [MultibootMmapEntry.length_toBytes]
      obtain ⟨-, haddr, -, -⟩ := MmapMemory.fields he hbytes rfl
      rw [sortMmapPass, mmapNext_eq he hbytes rfl, Run.ok_bind, haddr, Run.ok_bind,
        Word32.add_of_lt (by omega), MmapMemory.addr, MmapMemory.field_outside (by omega) (by omega)]
      rfl
    | @cons b padding' es paddings hb hform =>
      simp only [SameSizeSwaps, List.pairwise_cons, List.mem_cons, forall_eq_or_imp] at hsizes
      obtain ⟨⟨heb, hes⟩, hbs, hrest⟩ := hsizes
      rw [List.length_cons, Nat.add_lt_add_iff_right] at hk
      rw [sortMmapPass_step i last hbytes he hb heb hend.le]
      split_ifs with hgt
      · have he' : e.Padded padding' := { he with size_eq := by rw [heb hgt]; exact hb.size_eq }
        refine ih (i + 1) (i + 1) (m := ⟨m.mmapAddr, (before ++ (b.toBytes ++ padding)) ++
          mapBytes (e :: es) (padding' :: paddings)⟩) rfl (.cons he' hform)
          (List.pairwise_cons.mpr ⟨hes, hrest⟩) ?_ hk
        rw [hbytes] at hend
        simp only [mapBytes, List.length_append, MultibootMmapEntry.length_toBytes] at hend ⊢
        omega
      · exact ih (i + 1) last
          (show m.bytes = (before ++ (e.toBytes ++ padding)) ++
            mapBytes (b :: es) (padding' :: paddings) by simp [hbytes, mapBytes])
          (.cons hb hform) (List.pairwise_cons.mpr ⟨hbs, hrest⟩) hend hk

/-- The passes sort the entries, and leave the paddings in their places. -/
theorem sortMmapLoop_eq {fuel n : ℕ} (hfuel : n ≤ fuel) (hn : n ≤ es.length)
    (hbytes : m.bytes = mapBytes es paddings) (hform : Formatted es paddings)
    (hsizes : SameSizeSwaps es) (hend : m.mmapAddr + m.bytes.length ≤ 4294967296) :
    sortMmapLoop fuel n m =
        .ok ⟨m.mmapAddr, mapBytes (BubbleSort.sort MultibootMmapEntry.addr n es) paddings⟩ ∧
      Formatted (BubbleSort.sort MultibootMmapEntry.addr n es) paddings := by
  induction fuel generalizing n m es with
  | zero =>
    obtain rfl : n = 0 := by omega
    rw [sortMmapLoop.eq_def, BubbleSort.sort, dif_pos rfl, ← hbytes]
    exact ⟨rfl, hform⟩
  | succ fuel ih =>
    cases n with
    | zero =>
      rw [sortMmapLoop, BubbleSort.sort, dif_pos rfl, ← hbytes]
      exact ⟨rfl, hform⟩
    | succ n =>
      obtain - | @⟨e, padding, es, paddings, he, hes⟩ := hform
      · simp at hn
      have hform : Formatted (e :: es) (padding :: paddings) := .cons he hes
      rw [List.length_cons, Nat.add_le_add_iff_right] at hn
      obtain ⟨hrun, hform'⟩ := sortMmapPass_eq 0 0
        (show m.bytes = [] ++ mapBytes (e :: es) (padding :: paddings) from hbytes)
        hform hsizes hend hn
      have hle := BubbleSort.pass_snd_le MultibootMmapEntry.addr n 0 0 (e :: es)
      have hcount := (BubbleSort.pass_perm MultibootMmapEntry.addr n 0 0 (e :: es)).length_eq
      have hsizes' : SameSizeSwaps (BubbleSort.pass MultibootMmapEntry.addr n 0 0 (e :: es)).1 :=
        BubbleSort.pass_pairwise MultibootMmapEntry.addr (fun x y hxy hyx => by omega) hsizes
      have hlen : (mapBytes (BubbleSort.pass MultibootMmapEntry.addr n 0 0 (e :: es)).1
          (padding :: paddings)).length = m.bytes.length := by
        rw [hbytes, length_mapBytes hform, length_mapBytes hform']
      rw [List.length_cons] at hcount
      rw [List.length_nil, Nat.add_zero, List.nil_append] at hrun
      rw [sortMmapLoop, hrun, Run.ok_bind, BubbleSort.sort, dif_neg (by omega)]
      simp only [Nat.add_sub_cancel]
      exact ih (by omega) (by omega) rfl hform' hsizes' (by rw [hlen]; exact hend)

/-- `mmap_for_each` visits nothing in a map that ends at 4 GB. -/
theorem mmapForEach_top (fuel mmap : ℕ) (hend : m.mmapAddr + m.bytes.length = 4294967296) :
    mmapForEach fuel m mmap = .ok [] := by
  have hzero : Word32.add m.mmapAddr m.bytes.length = 0 := by
    rw [Word32.add, hend]
    rfl
  cases fuel <;> rw [mmapForEach, hzero, if_neg (Nat.not_lt_zero _)]

/-- `mmap_for_each` visits the entries of the map, if it ends below 4 GB. -/
theorem mmapForEach_eq (fuel : ℕ) (hfuel : es.length ≤ fuel)
    (hbytes : m.bytes = before ++ mapBytes es paddings) (hform : Formatted es paddings)
    (hend : m.mmapAddr + m.bytes.length < 4294967296) :
    mmapForEach fuel m (m.mmapAddr + before.length) = .ok es := by
  induction es generalizing fuel before paddings with
  | nil =>
    obtain rfl : paddings = [] := List.forall₂_nil_left_iff.mp hform
    have hlen : m.bytes.length = before.length := by
      rw [hbytes]
      simp [mapBytes]
    cases fuel <;> rw [mmapForEach, Word32.add_of_lt hend, if_neg (by omega)]
  | cons e es ih =>
    obtain ⟨fuel, rfl⟩ : ∃ n, fuel = n + 1 :=
      ⟨fuel - 1, (Nat.sub_add_cancel (Nat.one_le_of_lt hfuel)).symm⟩
    obtain - | @⟨_, padding, _, paddings, he, hform⟩ := hform
    have hbytes' : m.bytes = (before ++ (e.toBytes ++ padding)) ++ mapBytes es paddings := by
      simp [hbytes, mapBytes]
    simp only [mapBytes, List.append_assoc] at hbytes
    have hlen : m.bytes.length = before.length + (24 + padding.length) +
        (mapBytes es paddings).length := by
      rw [hbytes]
      simp only [List.length_append, MultibootMmapEntry.length_toBytes]
      omega
    have hbefore : (before ++ (e.toBytes ++ padding)).length =
        before.length + (24 + padding.length) := by
      simp [MultibootMmapEntry.length_toBytes]
    obtain ⟨hsize, haddr, hlength, htype⟩ := MmapMemory.fields he hbytes rfl
    rw [List.length_cons, Nat.add_le_add_iff_right] at hfuel
    rw [mmapForEach, Word32.add_of_lt hend, if_pos (by omega), hsize, Run.ok_bind, haddr,
      Run.ok_bind, hlength, Run.ok_bind, htype, Run.ok_bind,
      mmapNext_entry he hbytes (by omega), Run.ok_bind, ih fuel hfuel hbytes' hform]
    rfl

end Passes

/-! ## The area of the map -/

/-- The map lies at the same place, with the same length. -/
def MmapMemory.SameArea (m m' : MmapMemory) : Prop :=
  m'.mmapAddr = m.mmapAddr ∧ m'.bytes.length = m.bytes.length

section Area

variable {m m' : MmapMemory}

theorem MmapMemory.sameArea_write {p : ℕ} {bs : List ℕ} (h : m.write p bs = .ok m') :
    m.SameArea m' := by
  unfold MmapMemory.write at h
  split_ifs at h with hin
  obtain rfl := Except.ok.inj h
  refine ⟨rfl, ?_⟩
  simp only [List.length_append, List.length_take, List.length_drop]
  omega

theorem sameArea_mmapSwap {a b : ℕ} (h : mmapSwap m a b = .ok m') : m.SameArea m' := by
  unfold mmapSwap at h
  simp only [Run.bind_eq_ok] at h
  obtain ⟨x, -, y, -, m₁, h₁, h₂⟩ := h
  obtain ⟨haddr₁, hlen₁⟩ := MmapMemory.sameArea_write h₁
  obtain ⟨haddr₂, hlen₂⟩ := MmapMemory.sameArea_write h₂
  exact ⟨haddr₂.trans haddr₁, hlen₂.trans hlen₁⟩

theorem sameArea_sortMmapPass {k i last mmap last' : ℕ}
    (h : sortMmapPass k i last m mmap = .ok (m', last')) : m.SameArea m' := by
  induction k generalizing i last m mmap with
  | zero =>
    obtain ⟨rfl, -⟩ := Prod.mk.inj (Except.ok.inj h)
    exact ⟨rfl, rfl⟩
  | succ k ih =>
    rw [sortMmapPass] at h
    simp only [Run.bind_eq_ok] at h
    obtain ⟨next, -, a, -, b, -, h⟩ := h
    split_ifs at h
    · simp only [Run.bind_eq_ok] at h
      obtain ⟨m₁, hswap, p, -, h⟩ := h
      obtain ⟨haddr₁, hlen₁⟩ := sameArea_mmapSwap hswap
      obtain ⟨haddr₂, hlen₂⟩ := ih h
      exact ⟨haddr₂.trans haddr₁, hlen₂.trans hlen₁⟩
    · exact ih h

theorem sameArea_sortMmapLoop {fuel n : ℕ} (h : sortMmapLoop fuel n m = .ok m') :
    m.SameArea m' := by
  induction fuel generalizing n m with
  | zero =>
    cases n with
    | zero =>
      obtain rfl := Except.ok.inj h
      exact ⟨rfl, rfl⟩
    | succ n => cases h
  | succ fuel ih =>
    cases n with
    | zero =>
      obtain rfl := Except.ok.inj h
      exact ⟨rfl, rfl⟩
    | succ n =>
      rw [sortMmapLoop, Run.bind_eq_ok] at h
      obtain ⟨⟨m₁, last⟩, hpass, h⟩ := h
      obtain ⟨haddr₁, hlen₁⟩ := sameArea_sortMmapPass hpass
      obtain ⟨haddr₂, hlen₂⟩ := ih h
      exact ⟨haddr₂.trans haddr₁, hlen₂.trans hlen₁⟩

end Area

/-! ## What `sort_multiboot_mmap` achieves -/

/-- What `fill_phys_mmap` and `find_pmm_location` read of an entry. -/
def MultibootMmapEntry.region (e : MultibootMmapEntry) : ℕ × ℕ × ℕ := (e.addr, e.len, e.type)

/-- `sort_multiboot_mmap` stays inside the map, and afterwards `mmap_for_each` visits the same
regions, in the order of their addresses. -/
def SortsMap (m : MmapMemory) (es : List MultibootMmapEntry) : Prop :=
  ∃ m' visited, sortMmapBytes m = .ok m' ∧
    mmapForEach m'.bytes.length m' m'.mmapAddr = .ok visited ∧
    (visited.map MultibootMmapEntry.region).Perm (es.map MultibootMmapEntry.region) ∧
    visited.Pairwise fun x y => x.addr ≤ y.addr

section SortsMap

variable {es : List MultibootMmapEntry} {paddings : List (List ℕ)} {mmapAddr : ℕ}

/-- Every entry has at least 24 bytes. -/
theorem length_le_mapBytes (hform : Formatted es paddings) :
    24 * es.length ≤ (mapBytes es paddings).length := by
  induction hform with
  | nil => simp
  | cons _ _ ih =>
    simp only [mapBytes, List.length_append, MultibootMmapEntry.length_toBytes, List.length_cons]
    omega

/-- If the count is right, the bytes are sorted as the list of their entries is. -/
theorem sortMmapBytes_eq (hform : Formatted es paddings) (hsizes : SameSizeSwaps es)
    (hend : mmapAddr + (mapBytes es paddings).length ≤ 4294967296)
    (hcount : (mapBytes es paddings).length / 24 = es.length) :
    sortMmapBytes ⟨mmapAddr, mapBytes es paddings⟩ =
        .ok ⟨mmapAddr, mapBytes (BubbleSort.sort MultibootMmapEntry.addr es.length es) paddings⟩ ∧
      Formatted (BubbleSort.sort MultibootMmapEntry.addr es.length es) paddings := by
  rw [sortMmapBytes]
  simp only [hcount]
  exact sortMmapLoop_eq le_rfl le_rfl rfl hform hsizes hend

/-- The sort of the entries of `sortMultibootMmap` is what the code does to a map without
paddings. -/
theorem sortMmapBytes_refines (mbi : MultibootInfo) (hform : Formatted mbi.mmap paddings)
    (hsizes : SameSizeSwaps mbi.mmap) (hlen : mbi.mmapLength = (mapBytes mbi.mmap paddings).length)
    (hend : mbi.mmapAddr + mbi.mmapLength ≤ 4294967296)
    (hcount : mbi.mmapLength / 24 = mbi.mmap.length) :
    sortMmapBytes ⟨mbi.mmapAddr, mapBytes mbi.mmap paddings⟩ =
      .ok ⟨mbi.mmapAddr, mapBytes (sortMultibootMmap mbi).mmap paddings⟩ := by
  rw [(sortMmapBytes_eq hform hsizes (hlen ▸ hend) (hlen ▸ hcount)).1, sortMultibootMmap, hcount]

/-- With a count that is too large the first pass leaves the map. -/
theorem sortMmapBytes_outside (hform : Formatted es paddings) (hsizes : SameSizeSwaps es)
    (hend : mmapAddr + (mapBytes es paddings).length < 4294967296)
    (hcount : (mapBytes es paddings).length / 24 ≠ es.length) :
    sortMmapBytes ⟨mmapAddr, mapBytes es paddings⟩ = .error .outOfBounds := by
  have hle := length_le_mapBytes hform
  rw [sortMmapBytes]
  simp only
  obtain - | @⟨e, padding, es, paddings, he, hes⟩ := hform
  · simp [mapBytes] at hcount
  · have hform : Formatted (e :: es) (padding :: paddings) := .cons he hes
    obtain ⟨n, hn⟩ : ∃ n, (mapBytes (e :: es) (padding :: paddings)).length / 24 = n + 1 :=
      ⟨_, (Nat.sub_add_cancel (by rw [List.length_cons] at hle; omega)).symm⟩
    set m : MmapMemory := ⟨mmapAddr, mapBytes (e :: es) (padding :: paddings)⟩
    have hout := sortMmapPass_outside (k := n) 0 0
      (show m.bytes = [] ++ mapBytes (e :: es) (padding :: paddings) from rfl) hform hsizes hend
      (by rw [List.length_cons] at hle hcount; omega)
    rw [List.length_nil, Nat.add_zero] at hout
    rw [hn, sortMmapLoop, hout]
    rfl

/-- **When `sort_multiboot_mmap` sorts a map.** For every map in the multiboot format whose entries
have the same size where they are out of order: exactly if the division of `mmap_length` by 24 gives
the number of entries, and the map ends below 4 GB. -/
theorem sort_multiboot_mmap_sorts (mmapAddr : ℕ) (es : List MultibootMmapEntry)
    (paddings : List (List ℕ)) (hform : Formatted es paddings) (hsizes : SameSizeSwaps es)
    (haddr : mmapAddr < 4294967296)
    (hend : mmapAddr + (mapBytes es paddings).length ≤ 4294967296) :
    SortsMap ⟨mmapAddr, mapBytes es paddings⟩ es ↔
      (mapBytes es paddings).length / 24 = es.length ∧
        mmapAddr + (mapBytes es paddings).length < 4294967296 := by
  constructor
  · rintro ⟨m', visited, hsort, hvisit, hperm, -⟩
    have hlt : mmapAddr + (mapBytes es paddings).length < 4294967296 := by
      by_contra htop
      -- the 32-bit end of the map is `0`, and nothing is visited
      obtain ⟨hbase, hlen⟩ := sameArea_sortMmapLoop hsort
      simp only at hbase hlen
      rw [mmapForEach_top _ _ (by omega)] at hvisit
      obtain rfl := Except.ok.inj hvisit
      obtain rfl : es = [] := by simpa using hperm.length_eq.symm
      simp [mapBytes] at htop
      omega
    refine ⟨?_, hlt⟩
    by_contra hcount
    rw [sortMmapBytes_outside hform hsizes hlt hcount] at hsort
    cases hsort
  · rintro ⟨hcount, hlt⟩
    obtain ⟨hsort, hform'⟩ := sortMmapBytes_eq hform hsizes hlt.le hcount
    have hperm := BubbleSort.sort_perm MultibootMmapEntry.addr es.length es
    have hlen : (mapBytes (BubbleSort.sort MultibootMmapEntry.addr es.length es) paddings).length =
        (mapBytes es paddings).length := by rw [length_mapBytes hform, length_mapBytes hform']
    refine ⟨_, _, hsort, ?_, hperm.map _, BubbleSort.sort_length_sorted _ es⟩
    have hvisit := mmapForEach_eq (m := ⟨mmapAddr, _⟩)
      (mapBytes (BubbleSort.sort MultibootMmapEntry.addr es.length es) paddings).length
      (by rw [hperm.length_eq, hlen]; have := length_le_mapBytes hform; omega)
      (show mapBytes (BubbleSort.sort MultibootMmapEntry.addr es.length es) paddings =
        [] ++ _ from rfl) hform' (by rw [hlen]; exact hlt)
    rwa [List.length_nil, Nat.add_zero] at hvisit

end SortsMap

/-- Without the condition on the sizes the bytes behind the structures decide: here they happen to
continue the entry that was moved. -/
example : SortsMap
    ⟨0xa000, mapBytes [⟨20, 0x1400000014, 0x1400000014, 20⟩, ⟨24, 0x100000, 0x1000, 1⟩]
      [[], [20, 0, 0, 0]]⟩
    [⟨20, 0x1400000014, 0x1400000014, 20⟩, ⟨24, 0x100000, 0x1000, 1⟩] :=
  ⟨_, _, rfl, rfl, by decide, by decide⟩

/-- The theorem for two entries out of order, with 4 bytes behind each. -/
theorem sort_multiboot_mmap_sorts_two :
    SortsMap ⟨0xa000, mapBytes [⟨24, 0x200000, 0x1000, 1⟩, ⟨24, 0x100000, 0x1000, 2⟩]
        [[0, 0, 0, 0], [0, 0, 0, 0]]⟩ [⟨24, 0x200000, 0x1000, 1⟩, ⟨24, 0x100000, 0x1000, 2⟩] :=
  (sort_multiboot_mmap_sorts 0xa000 [⟨24, 0x200000, 0x1000, 1⟩, ⟨24, 0x100000, 0x1000, 2⟩]
    [[0, 0, 0, 0], [0, 0, 0, 0]]
    (.cons ⟨rfl, by simp, by simp, by simp, by simp⟩
      (.cons ⟨rfl, by simp, by simp, by simp, by simp⟩ .nil))
    (by simp [SameSizeSwaps]) (by omega) (by decide)).mpr (by decide)

/-- One entry of 48 bytes is counted as two, and its successor is read behind the map. With entries
of 24 and 28 bytes out of order, the swap leaves a map in which the second entry cannot be found. -/
theorem sort_multiboot_mmap_fails :
    sortMmapBytes ⟨0xa000, mapBytes [⟨44, 0x100000, 0x1000, 1⟩] [List.replicate 24 0]⟩ =
        .error .outOfBounds ∧
      ¬ SortsMap ⟨0xa000, mapBytes [⟨44, 0x100000, 0x1000, 1⟩] [List.replicate 24 0]⟩
        [⟨44, 0x100000, 0x1000, 1⟩] ∧
      ¬ SortsMap ⟨0xa000, mapBytes [⟨20, 0x200000, 0x1000, 1⟩, ⟨24, 0x100000, 0x1000, 1⟩]
        [[], [0, 0, 0, 0]]⟩ [⟨20, 0x200000, 0x1000, 1⟩, ⟨24, 0x100000, 0x1000, 1⟩] := by
  have hcount : sortMmapBytes ⟨0xa000, mapBytes [⟨44, 0x100000, 0x1000, 1⟩] [List.replicate 24 0]⟩ =
      .error .outOfBounds := by decide +kernel
  refine ⟨hcount, ?_, ?_⟩
  · rintro ⟨m', visited, hsort, -⟩
    rw [hcount] at hsort
    cases hsort
  · rintro ⟨m', visited, hsort, hvisit, hperm, -⟩
    -- the walk finds its second entry in the middle of the structure
    have hrun : (sortMmapBytes ⟨0xa000, mapBytes [⟨20, 0x200000, 0x1000, 1⟩,
        ⟨24, 0x100000, 0x1000, 1⟩] [[], [0, 0, 0, 0]]⟩ >>= fun m =>
          mmapForEach m.bytes.length m m.mmapAddr) =
        .ok [⟨24, 0x100000, 0x1000, 1⟩, ⟨0x200000, 0x100000000000, 0x100000000, 0⟩] := by
      decide +kernel
    rw [hsort, Run.ok_bind, hvisit] at hrun
    obtain rfl := Except.ok.inj hrun
    exact absurd hperm (by decide)

end Ahos
