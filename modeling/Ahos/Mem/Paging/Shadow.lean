import Ahos.Mem.Kmalloc.Ownership

/-!
# Machines on the same tables

The paging code reads and writes the directory and the tables and nothing else. Two machines
whose memories agree there translate alike, and `map_page` and `unmap_page` do the same on
both, whatever the other memory holds.
-/

namespace Ahos

/-- The translation of a byte is that of its page. -/
theorem translate_page (mem : ℕ → ℕ) (dir x : ℕ) :
    translate mem dir x = (walk mem dir (4096 * (x / 4096))).map fun e => e.1 + pageOffset x := by
  have hd : pdIndex (4096 * (x / 4096)) = pdIndex x := by
    rw [pdIndex_eq, pdIndex_eq]
    omega
  have ht : ptIndex (4096 * (x / 4096)) = ptIndex x := by
    rw [ptIndex_eq, ptIndex_eq]
    omega
  rw [translate_eq_walk, walk, walk, hd, ht]

/-- The word at `x` is an entry of the directory or of a table. -/
def TableWord (mem : ℕ → ℕ) (dir x : ℕ) : Prop :=
  (∃ d < 1024, x = dir + 4 * d) ∨ ∃ d < 1023, isPresent (pde mem dir d) = true ∧
    ∃ t < 1024, x = tableAddr mem dir d + 4 * t

/-- An entry of the directory. -/
theorem tableWord_pde (mem : ℕ → ℕ) (dir : ℕ) {d : ℕ} (hd : d < 1024) :
    TableWord mem dir (dir + 4 * d) := .inl ⟨d, hd, rfl⟩

/-- An entry of a table. -/
theorem tableWord_pte {mem : ℕ → ℕ} {dir d t : ℕ} (hself : SelfMapped mem dir) (hd : d < 1024)
    (ht : t < 1024) (hp : isPresent (pde mem dir d) = true) :
    TableWord mem dir (tableAddr mem dir d + 4 * t) := by
  by_cases hlast : d = 1023
  · -- the last entry of the directory points to the directory itself
    rw [hlast, hself.addr]
    exact tableWord_pde mem dir ht
  · exact .inr ⟨d, by omega, hp, t, ht, rfl⟩

section Agree

variable {mem mem' : ℕ → ℕ} {dir : ℕ}

/-- The memories agree on the directory and the tables of the first. -/
def AgreeTables (dir : ℕ) (mem mem' : ℕ → ℕ) : Prop := ∀ x, TableWord mem dir x → mem' x = mem x

theorem AgreeTables.pde (h : AgreeTables dir mem mem') {d : ℕ} (hd : d < 1024) :
    pde mem' dir d = pde mem dir d := h _ (tableWord_pde mem dir hd)

theorem AgreeTables.tableAddr (h : AgreeTables dir mem mem') {d : ℕ} (hd : d < 1024) :
    tableAddr mem' dir d = tableAddr mem dir d := by
  rw [Ahos.tableAddr, h.pde hd, Ahos.tableAddr]

theorem AgreeTables.pte (h : AgreeTables dir mem mem') (hself : SelfMapped mem dir) {d t : ℕ}
    (hd : d < 1024) (ht : t < 1024) (hp : isPresent (Ahos.pde mem dir d) = true) :
    mem' (Ahos.tableAddr mem dir d + 4 * t) = mem (Ahos.tableAddr mem dir d + 4 * t) :=
  h _ (tableWord_pte hself hd ht hp)

theorem AgreeTables.self (h : AgreeTables dir mem mem') (hself : SelfMapped mem dir) :
    SelfMapped mem' dir :=
  ⟨by rw [h.pde (by omega)]; exact hself.present, by rw [h.tableAddr (by omega)]; exact hself.addr⟩

/-- **Memories that agree on the tables translate alike.** -/
theorem AgreeTables.translate (h : AgreeTables dir mem mem') (hself : SelfMapped mem dir) {v : ℕ}
    (hv : v < 4294967296) : translate mem' dir v = translate mem dir v := by
  have hd : pdIndex v < 1024 := by
    rw [pdIndex_eq]
    omega
  have ht := ptIndex_lt v
  rw [translate_eq_walk, translate_eq_walk, walk, walk, h.pde hd, h.tableAddr hd]
  by_cases hp : isPresent (Ahos.pde mem dir (pdIndex v)) = true
  · rw [if_pos hp, if_pos hp, h.pte hself hd ht hp]
  · rw [if_neg hp, if_neg hp]

/-- Writing the same words into both memories. -/
theorem AgreeTables.update (h : AgreeTables dir mem mem') {x word : ℕ}
    (hsame : ∀ y, TableWord (Function.update mem x word) dir y → y ≠ x → TableWord mem dir y) :
    AgreeTables dir (Function.update mem x word) (Function.update mem' x word) := by
  intro y hy
  rw [Function.update_apply, Function.update_apply]
  split_ifs with hyx
  · rfl
  · exact h y (hsame y hy hyx)

/-- The tables depend on the directory only. -/
theorem tableWord_congr (h : ∀ d < 1023, pde mem' dir d = pde mem dir d) {x : ℕ} :
    TableWord mem' dir x ↔ TableWord mem dir x := by
  refine or_congr Iff.rfl (exists_congr fun d => and_congr_right fun hd => ?_)
  rw [tableAddr, h d hd, tableAddr]

end Agree

section Owned

variable {mem : ℕ → ℕ} {pfa : PfaMeta} {dir : ℕ} {rest : List (ℕ × ℕ)}

/-- A frame next to those of the directory and the tables contains no word of them. -/
theorem PagingInv.not_tableWord (h : PagingInv mem pfa dir rest) {f x : ℕ} (hf : Within rest f)
    (hlo : f ≤ x) (hhi : x < f + 4096) : ¬ TableWord mem dir x := by
  obtain ⟨hdir, hpw⟩ := List.pairwise_cons.mp h.owned.pairwise
  obtain ⟨-, -, hcross⟩ := List.pairwise_append.mp hpw
  obtain ⟨a, ha, i, hi, rfl⟩ := hf
  rintro (⟨d, hd, rfl⟩ | ⟨d, hd, hp, t, ht, rfl⟩)
  · have := hdir a (List.mem_append_right _ ha)
    simp only [Apart] at this
    omega
  · have := hcross _ (mem_tables hd hp) a ha
    simp only [Apart] at this
    omega

/-- A page that is no frame of the allocator contains no word of the tables. -/
theorem PagingInv.not_tableWord_of_no_frame (h : PagingInv mem pfa dir rest) {x : ℕ}
    (hno : ¬ ∃ c, FrameIs pfa (4096 * (x / 4096)) c) : ¬ TableWord mem dir x := by
  intro hx
  have hframe : ∀ p, (p, 1) ∈ (dir, 1) :: (tables mem dir ++ rest) → p ≤ x → x < p + 4096 →
      False := by
    intro p hp hlo hhi
    obtain ⟨hmod, -, -⟩ := h.owned.frame hp
    refine hno (h.owned.exists_frameIs ⟨_, hp, 0, by omega, ?_⟩)
    simp only
    omega
  rcases hx with ⟨d, hd, rfl⟩ | ⟨d, hd, hp, t, ht, rfl⟩
  · exact hframe dir (List.mem_cons_self ..) (by omega) (by omega)
  · exact hframe _ (List.mem_cons_of_mem _ (List.mem_append_left _ (mem_tables hd hp)))
      (by omega) (by omega)

end Owned

/-! ## The paging code on both -/

section Code

variable {mem mem₁ mem₂ : ℕ → ℕ} {pfa : PfaMeta} {dir phys virt flags : ℕ} {rest : List (ℕ × ℕ)}

/-- A call has turned the memories `mem`, `mem'`, which agree on the tables, into `mem₁`, `mem₁'`:
they still agree, the second has changed in the tables only, and no table has been given up. -/
structure SameCall (dir : ℕ) (mem mem' mem₁ mem₁' : ℕ → ℕ) : Prop where
  agree : AgreeTables dir mem₁ mem₁'
  outside : ∀ x, ¬ TableWord mem₁ dir x → mem₁' x = mem' x
  grow : ∀ x, TableWord mem dir x → TableWord mem₁ dir x

/-- Writing an entry of a table. -/
theorem sameCall_update {mem' : ℕ → ℕ} (hinv : PagingInv mem pfa dir rest)
    (h : AgreeTables dir mem mem') {d t : ℕ} (hd : d < 1023) (ht : t < 1024)
    (hp : isPresent (pde mem dir d) = true) (word : ℕ) :
    SameCall dir mem mem' (Function.update mem (tableAddr mem dir d + 4 * t) word)
      (Function.update mem' (tableAddr mem dir d + 4 * t) word) := by
  have hapart := hinv.table_dir hd hp
  have hpde : ∀ e < 1023, pde (Function.update mem (tableAddr mem dir d + 4 * t) word) dir e =
      pde mem dir e := fun e he => Function.update_of_ne (by omega) _ _
  have hpages := fun x => tableWord_congr (x := x) hpde
  have hthis := tableWord_pte hinv.self (show d < 1024 by omega) ht hp
  refine ⟨h.update fun y hy _ => (hpages y).mp hy, fun x hx => ?_, fun x hx => (hpages x).mpr hx⟩
  refine Function.update_of_ne ?_ _ _
  rintro rfl
  exact hx ((hpages _).mpr hthis)

/-- Linking a new table. -/
theorem sameCall_newTable {mem' : ℕ → ℕ} (hinv : PagingInv mem pfa dir rest)
    (h : AgreeTables dir mem mem') {d table : ℕ} {pfa' : PfaMeta} (hd : d < 1023)
    (hp : isPresent (pde mem dir d) = false) (halloc : pfaAlloc pfa 1 = .ok (table, pfa'))
    (hne : table ≠ 0) (flags : ℕ) :
    SameCall dir mem mem' (newTableMem mem dir d flags table)
      (newTableMem mem' dir d flags table) := by
  obtain ⟨hinv₁, hpres, htable, -⟩ : PagingInv (newTableMem mem dir d flags table) pfa' dir rest ∧
      _ := walk_newTableMem hinv hd hp halloc hne
  obtain ⟨hown, -, -, hapart⟩ := hinv.new_frame halloc hne
  have hentry := fun e (he : e < 1024) => pde_newTableMem mem d flags hapart he
  have hthis : ∀ t < 1024, TableWord (newTableMem mem dir d flags table) dir (table + 4 * t) :=
    fun t ht => .inr ⟨d, hd, hpres, t, ht, by rw [htable]⟩
  have hin : ∀ m : ℕ → ℕ, ∀ t < 1024, newTableMem m dir d flags table (table + 4 * t) =
      flags &&& (0xffffffff - maskPresent) := fun m t ht => fillTable_in ht
  have hout : ∀ m : ℕ → ℕ, ∀ x, (∀ t < 1024, x ≠ table + 4 * t) →
      newTableMem m dir d flags table x =
        Function.update m (dir + 4 * d) (newPde flags table) x := fun m x hx => fillTable_ne hx
  have hold : ∀ x, TableWord (newTableMem mem dir d flags table) dir x →
      TableWord mem dir x ∨ ∃ t < 1024, x = table + 4 * t := by
    rintro x (hx | ⟨e, he, hpe, t, ht, rfl⟩)
    · exact .inl (.inl hx)
    · by_cases hed : e = d
      · subst hed
        exact .inr ⟨t, ht, by rw [htable]⟩
      · rw [tableAddr, hentry e (by omega), if_neg hed, ← tableAddr]
        rw [hentry e (by omega), if_neg hed] at hpe
        exact .inl (.inr ⟨e, he, hpe, t, ht, rfl⟩)
  refine ⟨fun x hx => ?_, fun x hx => ?_, ?_⟩
  · by_cases hnew : ∃ t < 1024, x = table + 4 * t
    · obtain ⟨t, ht, rfl⟩ := hnew
      rw [hin mem t ht, hin mem' t ht]
    · have hne : ∀ t < 1024, x ≠ table + 4 * t := fun t ht heq => hnew ⟨t, ht, heq⟩
      rw [hout mem x hne, hout mem' x hne, Function.update_apply, Function.update_apply]
      split_ifs
      · rfl
      · exact h x ((hold x hx).resolve_right hnew)
  · have hne : ∀ t < 1024, x ≠ table + 4 * t := by
      rintro t ht rfl
      exact hx (hthis t ht)
    rw [hout mem' x hne]
    refine Function.update_of_ne ?_ _ _
    rintro rfl
    exact hx (tableWord_pde _ dir (by omega))
  · rintro x (hx | ⟨e, he, hpe, t, ht, rfl⟩)
    · exact .inl hx
    · have hed : e ≠ d := by
        rintro rfl
        rw [hp] at hpe
        cases hpe
      have hsame := hentry e (by omega)
      rw [if_neg hed] at hsame
      exact .inr ⟨e, he, by rw [hsame]; exact hpe, t, ht, by rw [tableAddr, tableAddr, hsame]⟩

/-- Two calls, one after the other. -/
theorem SameCall.trans {mem' mem₁' mem₂' : ℕ → ℕ} (h : SameCall dir mem mem' mem₁ mem₁')
    (h' : SameCall dir mem₁ mem₁' mem₂ mem₂') : SameCall dir mem mem' mem₂ mem₂' := by
  refine ⟨h'.agree, fun x hx => ?_, fun x hx => h'.grow x (h.grow x hx)⟩
  exact (h'.outside x hx).trans (h.outside x fun hx₁ => hx (h'.grow x hx₁))

/-- A call that changes nothing. -/
theorem sameCall_refl {mem' : ℕ → ℕ} (h : AgreeTables dir mem mem') :
    SameCall dir mem mem' mem mem' :=
  ⟨h, fun _ _ => rfl, fun _ hx => hx⟩

/-- **`map_page`** does the same on memories that agree on the tables. -/
theorem mapPhys_same {mem' : ℕ → ℕ} (hinv : PagingInv mem pfa dir rest)
    (h : AgreeTables dir mem mem') (hv : virt < 0xffc00000) (phys flags : ℕ) :
    Run.Simulates (fun r r' => r'.1 = r.1 ∧ r'.2.2 = r.2.2 ∧ SameCall dir mem mem' r.2.1 r'.2.1)
      (mapPhys mem pfa dir phys virt flags) (mapPhys mem' pfa dir phys virt flags) := by
  have hd := pdIndex_lt hv
  have ht := ptIndex_lt virt
  rw [mapPhys, mapPhys, h.pde (by omega), h.tableAddr (by omega)]
  split_ifs with hbad hp hcons hpte hpte'
  · exact .ok ⟨rfl, rfl, sameCall_refl h⟩
  · exact .ok ⟨rfl, rfl, sameCall_refl h⟩
  · exact .error _
  · rw [h.pte hinv.self (by omega) ht hp] at hpte'
    exact absurd hpte hpte'
  · rw [h.pte hinv.self (by omega) ht hp] at *
    contradiction
  · exact .ok ⟨rfl, rfl, sameCall_update hinv h hd ht hp _⟩
  · rw [Bool.not_eq_true] at hp
    obtain ⟨table, pfa', halloc, -, -⟩ := pfaAlloc_spec hinv.owned 1
    rw [halloc, Run.ok_bind, Run.ok_bind]
    by_cases hne : table = 0
    · simp only [if_pos hne]
      exact .error _
    · simp only [if_neg hne]
      obtain ⟨hinv₁, hpres, htable, -⟩ :
          PagingInv (newTableMem mem dir (pdIndex virt) flags table) pfa' dir rest ∧ _ :=
        walk_newTableMem hinv hd hp halloc hne
      have hnew := sameCall_newTable hinv h hd hp halloc hne flags
      have hentry := sameCall_update hinv₁ hnew.agree hd ht hpres
        (phys ||| flags ||| maskPresent)
      rw [htable] at hentry
      exact .ok ⟨rfl, rfl, hnew.trans hentry⟩

/-- **`unmap_page`** does the same on memories that agree on the tables. -/
theorem unmapPhys_same {mem' : ℕ → ℕ} (hinv : PagingInv mem pfa dir rest)
    (h : AgreeTables dir mem mem') (hv : virt < 0xffc00000) :
    (unmapPhys mem' dir virt).1 = (unmapPhys mem dir virt).1 ∧
      SameCall dir mem mem' (unmapPhys mem dir virt).2 (unmapPhys mem' dir virt).2 := by
  have hd := pdIndex_lt hv
  have ht := ptIndex_lt virt
  simp only [unmapPhys, h.pde (show pdIndex virt < 1024 by omega),
    h.tableAddr (show pdIndex virt < 1024 by omega)]
  by_cases hp : isPresent (pde mem dir (pdIndex virt)) = true
  · rw [h.pte hinv.self (by omega) ht hp]
    split_ifs
    · exact ⟨rfl, sameCall_update hinv h hd ht hp _⟩
    · exact ⟨rfl, sameCall_refl h⟩
  · simp only [hp, Bool.false_eq_true, false_and, and_false, if_false]
    exact ⟨trivial, sameCall_refl h⟩

end Code

/-! ## Machines -/

/-- The machine `t` runs on the tables of `s`. -/
structure Shadow (dir : ℕ) (s t : Machine) : Prop where
  same : t = { s with mem := t.mem }
  agree : AgreeTables dir s.mem t.mem

/-- A call has turned the machines `s`, `t` into `s'`, `t'`. -/
structure ShadowCall (dir : ℕ) (s t s' t' : Machine) : Prop where
  same : t' = { s' with mem := t'.mem }
  call : SameCall dir s.mem t.mem s'.mem t'.mem

section Machines

variable {s t : Machine} {dir a : ℕ} {rest : List (ℕ × ℕ)} {msg : String}

theorem ShadowCall.shadow {s' t' : Machine} (h : ShadowCall dir s t s' t') : Shadow dir s' t' :=
  ⟨h.same, h.call.agree⟩

theorem ShadowCall.trans {s' t' s'' t'' : Machine} (h : ShadowCall dir s t s' t')
    (h' : ShadowCall dir s' t' s'' t'') : ShadowCall dir s t s'' t'' :=
  ⟨h'.same, h.call.trans h'.call⟩

/-- A machine that runs on well-formed tables has well-formed tables. -/
theorem Shadow.paging (h : Shadow dir s t) (hs : KernelPaging s dir rest) :
    KernelPaging t dir rest := by
  have hpde : ∀ d < 1023, pde t.mem dir d = pde s.mem dir d := fun d hd => h.agree.pde (by omega)
  have hsame := h.same
  refine ⟨?_, ⟨?_, h.agree.self hs.inv.self⟩, fun d hd hp => ?_⟩
  · rw [hsame]
    exact hs.reaches.update _ _
  · rw [tables_congr hpde, hsame]
    exact hs.inv.owned
  · rw [hpde d hd] at hp ⊢
    exact hs.kernel d hd hp

/-- A page is mapped to itself on both machines alike. -/
theorem mapIdentity_shadow (hs : KernelPaging s dir rest) (h : Shadow dir s t)
    (ha : a < 0xffc00000) (msg : String) :
    Run.Simulates (ShadowCall dir s t) (mapIdentity s a msg) (mapIdentity t a msg) := by
  have ht := h.paging hs
  have hsame := h.same
  rw [mapIdentity, mapIdentity, mapPage_eq hs.reaches hs.inv (ha.trans (by omega)),
    mapPage_eq ht.reaches ht.inv (ha.trans (by omega))]
  have hpfa : t.pfa = s.pfa := by rw [hsame]
  rw [hpfa]
  have hphys := mapPhys_same hs.inv h.agree ha a rwKernelNocache
  generalize mapPhys s.mem s.pfa dir a a rwKernelNocache = x at hphys ⊢
  generalize mapPhys t.mem s.pfa dir a a rwKernelNocache = y at hphys ⊢
  cases hphys with
  | error e => exact .error e
  | @ok r r' hr =>
    obtain ⟨mapped, mem₁, pfa₁⟩ := r
    obtain ⟨mapped', mem₁', pfa₁'⟩ := r'
    obtain ⟨hret, hpfa', hcall⟩ := hr
    simp only at hret hpfa' hcall
    subst hret hpfa'
    cases mapped' with
    | false => exact .error _
    | true => exact .ok ⟨by rw [hsame], hcall⟩

/-- A page is unmapped on both machines alike. -/
theorem unmapIdentity_shadow (hs : KernelPaging s dir rest) (h : Shadow dir s t)
    (ha : a < 0xffc00000) :
    Run.Simulates (ShadowCall dir s t) (unmapIdentity s a) (unmapIdentity t a) := by
  have ht := h.paging hs
  have hsame := h.same
  obtain ⟨hret, hcall⟩ := unmapPhys_same hs.inv h.agree ha
  rw [unmapIdentity, unmapIdentity, unmapPage_eq hs.reaches hs.inv ha,
    unmapPage_eq ht.reaches ht.inv ha, Run.ok_bind, Run.ok_bind, hret]
  cases (unmapPhys s.mem dir a).1 with
  | false => exact .error _
  | true => exact .ok ⟨by rw [hsame], hcall⟩

theorem Shadow.refl_call (h : Shadow dir s t) : ShadowCall dir s t s t :=
  ⟨h.same, sameCall_refl h.agree⟩

/-- A page that was unmapped leaves well-formed tables. -/
theorem unmapIdentity_ok {s' : Machine} (hs : KernelPaging s dir rest) (ha : a < 0xffc00000)
    (h : unmapIdentity s a = .ok s') : KernelPaging s' dir rest := by
  obtain ⟨-, -, hspec⟩ := unmapPhys_spec hs.inv ha
  rw [unmapIdentity, unmapPage_eq hs.reaches hs.inv ha, Run.ok_bind] at h
  cases hret : (unmapPhys s.mem dir a).1 with
  | false =>
    rw [hret] at h
    cases h
  | true =>
    rw [hret] at h
    obtain rfl := Except.ok.inj h
    exact ⟨hs.reaches.update _ _, (hspec hret).1, kernelTables_unmapPhys hs.inv hs.kernel ha⟩

/-- A loop over pages does the same on both machines, if its body does. -/
theorem foldlM_shadow {f : Machine → ℕ → Outcome Machine}
    (hok : ∀ s s' a, KernelPaging s dir rest → a < 0xffc00000 → f s a = .ok s' →
      KernelPaging s' dir rest)
    (hf : ∀ s t a, KernelPaging s dir rest → Shadow dir s t → a < 0xffc00000 →
      Run.Simulates (ShadowCall dir s t) (f s a) (f t a))
    (hs : KernelPaging s dir rest) (h : Shadow dir s t) {p n : ℕ} (hend : p + 4096 * n ≤ 0xffc00000) :
    Run.Simulates (ShadowCall dir s t)
      ((List.range n).foldlM (fun s i => f s (Word32.add p (Word32.mul i 4096))) s)
      ((List.range n).foldlM (fun s i => f s (Word32.add p (Word32.mul i 4096))) t) := by
  refine (Run.simulates_foldlM (R := fun u v => KernelPaging u dir rest ∧ ShadowCall dir s t u v)
    (fun u v i hi huv => ?_) ⟨hs, h.refl_call⟩).imp fun _ _ h => h.2
  have hi := List.mem_range.mp hi
  have haddr : Word32.add p (Word32.mul i 4096) < 0xffc00000 := by
    rw [Word32.add_mul_wrap, Word32.wrap_of_lt (by omega)]
    omega
  have hstep := hf u v _ huv.1 huv.2.shadow haddr
  have hkeep : Run.Returns (fun _ => True) (f u (Word32.add p (Word32.mul i 4096)))
      fun u' => KernelPaging u' dir rest :=
    ⟨fun u' hu' => hok u u' _ huv.1 haddr hu', fun _ _ => trivial⟩
  exact (hstep.and hkeep).imp fun u' v' h => ⟨h.1, huv.2.trans h.2⟩

/-- **Frames are mapped** on both machines alike. -/
theorem mapFrames_shadow (hs : KernelPaging s dir rest) (h : Shadow dir s t) {p n : ℕ}
    (hend : p + 4096 * n ≤ 0xffc00000) :
    Run.Simulates (ShadowCall dir s t) (mapFrames s p n) (mapFrames t p n) :=
  foldlM_shadow (f := fun s a => mapIdentity s a notImplemented)
    (fun _ _ _ hs ha h => (mapIdentity_ok hs ha h).1)
    (fun _ _ _ hs h ha => mapIdentity_shadow hs h ha notImplemented) hs h hend

/-- **Frames are unmapped** on both machines alike. -/
theorem unmapFrames_shadow (hs : KernelPaging s dir rest) (h : Shadow dir s t) {p n : ℕ}
    (hend : p + 4096 * n ≤ 0xffc00000) :
    Run.Simulates (ShadowCall dir s t) (unmapFrames s p n) (unmapFrames t p n) :=
  foldlM_shadow (f := unmapIdentity) (fun _ _ _ hs ha h => unmapIdentity_ok hs ha h)
    (fun _ _ _ hs h ha => unmapIdentity_shadow hs h ha) hs h hend

/-! ## What the paging code does not write -/

/-- Mapping pages writes words of the tables only. -/
theorem mapAll_outside {s s' : Machine} {pages : List ℕ} (hs : KernelPaging s dir rest)
    (hlt : ∀ a ∈ pages, a < 0xffc00000) (h : mapAll msg s pages = .ok s') :
    ShadowCall dir s s s' s' := by
  induction pages generalizing s with
  | nil =>
    obtain rfl := Except.ok.inj h
    exact Shadow.refl_call ⟨rfl, fun _ _ => rfl⟩
  | cons a pages ih =>
    rw [mapAll, List.foldlM_cons, Run.bind_eq_ok] at h
    obtain ⟨s₁, hmap, h⟩ := h
    have ha := hlt a (List.mem_cons_self ..)
    have hsim := mapIdentity_shadow hs (t := s) ⟨rfl, fun _ _ => rfl⟩ ha msg
    rw [hmap] at hsim
    cases hsim with
    | ok hcall =>
      exact hcall.trans (ih (mapIdentity_ok hs ha hmap).1
        (fun b hb => hlt b (List.mem_cons_of_mem _ hb)) h)

/-- **`paging_setup`** writes into frames only. -/
theorem pagingSetup_outside {env : BootRanges} {s s' : Machine} (henv : env.Below)
    (hpfa : PfaInv s.pfa rest) (hflag : s.pagingEnabled = false) (hpg : s.cr0Pg = false)
    (h : pagingSetup env s = .ok s') {x : ℕ}
    (hno : ¬ ∃ c, FrameIs s'.pfa (4096 * (x / 4096)) c) : s'.mem x = s.mem x := by
  obtain ⟨-, -, -, hk, -⟩ := pagingSetup_spec henv hpfa hflag hpg h
  obtain ⟨dir, pfa, t, -, -, -, hinv, rfl, hmap⟩ := pagingSetup_ok henv hpfa hpg h
  obtain ⟨hfresh, -⟩ := kernelPaging_fresh (s := s) hflag hpg hinv
  have hnot : ¬ TableWord t.mem dir x := hk.inv.not_tableWord_of_no_frame hno
  have hcall := mapAll_outside hfresh (mem_bootPages_lt henv) hmap
  have hdir : ∀ d < 1024, x ≠ dir + 4 * d := by
    rintro d hd rfl
    exact hnot (tableWord_pde _ dir hd)
  have hkept : t.mem x = freshDirectoryMem s.mem dir x := hcall.call.outside x hnot
  rw [show (t.window dir).mem x = t.mem x from rfl, hkept, freshDirectoryMem,
    Function.update_of_ne (hdir 1023 (by omega)), fillTable_ne hdir]

end Machines

end Ahos
