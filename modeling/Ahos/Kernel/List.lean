import Ahos.Lib.Links
import Ahos.Mem.Paging.Defs
import Mathlib.Data.Finset.Card
import Mathlib.Data.List.Pairwise

/-!
# The lists of the kernel

`list.h`: circular doubly linked lists whose nodes are embedded in other structures. A node
is the address of a `struct list`, the previous node in its first word and the next one in its
second. The functions access memory through the page tables. Where these map the words of the
nodes to themselves, the functions are the operations on rings, and they change no word
besides those of the nodes.
-/

namespace Ahos

/-! ## Words that are mapped to themselves -/

/-- The words `own` are mapped to themselves, whatever is written into them. -/
def Direct (own : ℕ → Prop) (s : Machine) : Prop :=
  ∀ mem, (∀ x, ¬ own x → mem x = s.mem x) → ∀ x, own x →
    ({ s with mem := mem } : Machine).resolve x = .ok x

section Direct

variable {own : ℕ → Prop} {s : Machine} {x word : ℕ}

theorem Direct.resolve (h : Direct own s) (hx : own x) : s.resolve x = .ok x :=
  h s.mem (fun _ _ => rfl) x hx

theorem Direct.load (h : Direct own s) (hx : own x) : s.load x = .ok (s.mem x) := by
  rw [Machine.load, h.resolve hx]
  rfl

theorem Direct.store (h : Direct own s) (hx : own x) :
    s.store x word = .ok { s with mem := Function.update s.mem x word } := by
  rw [Machine.store, h.resolve hx]
  rfl

/-- Writing into these words keeps them where they are. -/
theorem Direct.of_mem (h : Direct own s) {mem : ℕ → ℕ} (hmem : ∀ x, ¬ own x → mem x = s.mem x) :
    Direct own { s with mem := mem } :=
  fun mem' hmem' x hx => h mem' (fun y hy => (hmem' y hy).trans (hmem y hy)) x hx

theorem Direct.update (h : Direct own s) (hx : own x) (word : ℕ) :
    Direct own { s with mem := Function.update s.mem x word } := by
  refine h.of_mem fun y hy => Function.update_of_ne ?_ _ _
  rintro rfl
  exact hy hx

end Direct

/-! ## The functions -/

/-- `list_empty`. -/
def listEmpty (s : Machine) (head : ℕ) : Outcome Bool := do
  let next ← s.load (head + 4)
  return next = head

/-- `__list_add`. -/
def listAddBetween (s : Machine) (new prev next : ℕ) : Outcome Machine := do
  let s ← s.store next new
  let s ← s.store (new + 4) next
  let s ← s.store new prev
  s.store (prev + 4) new

/-- `list_add`. -/
def listAdd (s : Machine) (new head : ℕ) : Outcome Machine := do
  let next ← s.load (head + 4)
  listAddBetween s new head next

/-- `list_add_tail`. -/
def listAddTail (s : Machine) (new head : ℕ) : Outcome Machine := do
  let prev ← s.load head
  listAddBetween s new prev head

/-- `__list_del`. -/
def listDelBetween (s : Machine) (prev next : ℕ) : Outcome Machine := do
  let s ← s.store next prev
  s.store (prev + 4) next

/-- `list_del`. -/
def listDel (s : Machine) (entry : ℕ) : Outcome Machine := do
  let prev ← s.load entry
  let next ← s.load (entry + 4)
  listDelBetween s prev next

/-- `list_for_each` from the node `pos` on, with a body that only reads and may end the search.
The first argument bounds the number of rounds: a loop that comes back to a node never ends, and
there are no more than `2 ^ 32` addresses. -/
def listForEach {α : Type} (s : Machine) (head : ℕ) (body : ℕ → Outcome (Option α)) :
    ℕ → ℕ → Outcome (Option α)
  | 0, _ => .error .loops
  | fuel + 1, pos =>
    if pos = head then .ok none
    else do
      match ← body pos with
      | some found => return some found
      | none =>
        let next ← s.load (pos + 4)
        listForEach s head body fuel next

/-- The bound for the rounds of `list_for_each`. -/
def listRounds : ℕ := 4294967296

/-! ## Lists in memory -/

/-- The links of all nodes. -/
def linksOf (mem : ℕ → ℕ) : Links ℕ where
  next node := mem (node + 4)
  prev node := mem node

/-- The words of two nodes do not overlap. -/
def NodesApart (a b : ℕ) : Prop := a + 8 ≤ b ∨ b + 8 ≤ a

/-- The list with this head in memory: the nodes lie in the words `own` and do not overlap. -/
structure ListAt (own : ℕ → Prop) (mem : ℕ → ℕ) (head : ℕ) (nodes : List ℕ) : Prop where
  ring : (linksOf mem).Ring head nodes
  words : ∀ node ∈ head :: nodes, own node ∧ own (node + 4)
  apart : (head :: nodes).Pairwise NodesApart

/-- The word at `x` belongs to one of the nodes. -/
def NodeWord (nodes : List ℕ) (x : ℕ) : Prop := ∃ node ∈ nodes, x = node ∨ x = node + 4

section Lists

variable {own : ℕ → Prop} {s : Machine} {mem : ℕ → ℕ} {head new node : ℕ} {nodes : List ℕ}

theorem NodesApart.symm {a b : ℕ} (h : NodesApart a b) : NodesApart b a := Or.symm h

/-- Nodes of the list are equal or apart. -/
theorem ListAt.eq_or_apart (h : ListAt own mem head nodes) {a b : ℕ} (ha : a ∈ head :: nodes)
    (hb : b ∈ head :: nodes) : a = b ∨ NodesApart a b := by
  by_cases hab : a = b
  · exact .inl hab
  · have hsymm : Std.Symm NodesApart := ⟨fun _ _ h => h.symm⟩
    exact .inr (h.apart.forall ha hb hab)

/-- A list depends on the words of its nodes only. -/
theorem ListAt.congr (h : ListAt own mem head nodes) {mem' : ℕ → ℕ}
    (hsame : ∀ x, NodeWord (head :: nodes) x → mem' x = mem x) : ListAt own mem' head nodes :=
  ⟨h.ring.congr (fun y hy => hsame _ ⟨y, hy, .inr rfl⟩) fun y hy => hsame _ ⟨y, hy, .inl rfl⟩,
    h.words, h.apart⟩

/-- **`list_empty`** tells whether the list is empty. -/
theorem listEmpty_eq (hs : Direct own s) (h : ListAt own s.mem head nodes) :
    listEmpty s head = .ok (decide (nodes = [])) := by
  rw [listEmpty, hs.load (h.words head (List.mem_cons_self ..)).2, Run.ok_bind, Run.pure_eq]
  have hiff := h.ring.next_head_iff
  rw [linksOf] at hiff
  exact congrArg _ (decide_eq_decide.mpr hiff)

/-- The memory after `__list_add`. -/
def addedMem (mem : ℕ → ℕ) (new prev next : ℕ) : ℕ → ℕ :=
  Function.update (Function.update (Function.update (Function.update mem next new) (new + 4) next)
    new prev) (prev + 4) new

theorem listAddBetween_eq {prev next : ℕ} (hs : Direct own s) (hnew : own new ∧ own (new + 4))
    (hprev : own (prev + 4)) (hnext : own next) :
    listAddBetween s new prev next = .ok { s with mem := addedMem s.mem new prev next } := by
  have h₁ := hs.update hnext new
  have h₂ := h₁.update hnew.2 next
  have h₃ := h₂.update hnew.1 prev
  rw [listAddBetween, hs.store hnext, Run.ok_bind, h₁.store hnew.2, Run.ok_bind, h₂.store hnew.1,
    Run.ok_bind, h₃.store hprev]
  rfl

/-- The links after `__list_add` between two nodes of a list. -/
theorem inserted_addedMem (h : ListAt own mem head nodes) {prev next : ℕ}
    (hprev : prev ∈ head :: nodes) (hnext : next ∈ head :: nodes)
    (hnew : ∀ node ∈ head :: nodes, NodesApart new node) :
    Links.Inserted (linksOf mem) (linksOf (addedMem mem new prev next)) (head :: nodes)
      prev new next := by
  have hnp := hnew prev hprev
  have hnn := hnew next hnext
  have hpn := h.eq_or_apart hprev hnext
  have hcase : ∀ node ∈ head :: nodes, NodesApart new node ∧ (node = prev ∨ NodesApart node prev) ∧
      (node = next ∨ NodesApart node next) := fun node hnode =>
    ⟨hnew node hnode, h.eq_or_apart hnode hprev, h.eq_or_apart hnode hnext⟩
  unfold NodesApart at *
  constructor
  case next_left => simp [linksOf, addedMem]
  case prev_self =>
    simp only [linksOf, addedMem, Function.update_apply]
    rw [if_neg (by omega), if_pos trivial]
  case next_self =>
    simp only [linksOf, addedMem, Function.update_apply]
    rw [if_neg (by omega), if_neg (by omega), if_pos trivial]
  case prev_right =>
    simp only [linksOf, addedMem, Function.update_apply]
    rw [if_neg (by omega), if_neg (by omega), if_neg (by omega), if_pos trivial]
  case next_other =>
    intro node hnode hne
    have := hcase node hnode
    simp only [linksOf, addedMem, Function.update_apply]
    rw [if_neg (by omega), if_neg (by omega), if_neg (by omega), if_neg (by omega)]
  case prev_other =>
    intro node hnode hne
    have := hcase node hnode
    simp only [linksOf, addedMem, Function.update_apply]
    rw [if_neg (by omega), if_neg (by omega), if_neg (by omega), if_neg (by omega)]

/-- `__list_add` changes words of the three nodes only. -/
theorem addedMem_of_not_nodeWord {prev next : ℕ} {others : List ℕ} (hprev : prev ∈ others)
    (hnext : next ∈ others) {x : ℕ} (hx : ¬ NodeWord (new :: others) x) :
    addedMem mem new prev next x = mem x := by
  have hne : ∀ node ∈ new :: others, x ≠ node ∧ x ≠ node + 4 := fun node hnode =>
    ⟨fun heq => hx ⟨node, hnode, .inl heq⟩, fun heq => hx ⟨node, hnode, .inr heq⟩⟩
  have hn := hne new (List.mem_cons_self ..)
  simp only [addedMem, Function.update_apply]
  rw [if_neg (hne prev (List.mem_cons_of_mem _ hprev)).2, if_neg hn.1, if_neg hn.2,
    if_neg (hne next (List.mem_cons_of_mem _ hnext)).1]

/-- **`list_add`** puts a new node in front of the list, and changes words of the nodes only. -/
theorem listAdd_spec (hs : Direct own s) (h : ListAt own s.mem head nodes)
    (hown : own new ∧ own (new + 4)) (hnew : ∀ node ∈ head :: nodes, NodesApart new node) :
    ∃ mem, listAdd s new head = .ok { s with mem := mem } ∧ ListAt own mem head (new :: nodes) ∧
      ∀ x, ¬ NodeWord (new :: head :: nodes) x → mem x = s.mem x := by
  have hhead : head ∈ head :: nodes := List.mem_cons_self ..
  have hnext : s.mem (head + 4) ∈ head :: nodes := by
    have := h.ring.path.next_mem
    simp only [linksOf, List.mem_append, List.mem_singleton] at this
    exact List.mem_cons.mpr this.symm
  have hfresh : new ∉ head :: nodes := by
    intro hmem
    have := hnew new hmem
    unfold NodesApart at this
    omega
  refine ⟨addedMem s.mem new head (s.mem (head + 4)), ?_, ⟨?_, ?_, ?_⟩, fun x hx =>
    addedMem_of_not_nodeWord hhead hnext hx⟩
  · rw [listAdd, hs.load (h.words head hhead).2, Run.ok_bind]
    exact listAddBetween_eq hs hown (h.words head hhead).2 (h.words _ hnext).1
  · exact h.ring.insert_front hfresh (inserted_addedMem h hhead hnext hnew)
  · intro node hnode
    simp only [List.mem_cons] at hnode
    rcases hnode with rfl | rfl | hnode
    · exact h.words node hhead
    · exact hown
    · exact h.words node (List.mem_cons_of_mem _ hnode)
  · have hpw := h.apart
    rw [List.pairwise_cons] at hpw ⊢
    rw [List.pairwise_cons]
    refine ⟨fun node hnode => ?_, fun node hnode => hnew node (List.mem_cons_of_mem _ hnode), hpw.2⟩
    rcases List.mem_cons.mp hnode with rfl | hnode
    · exact (hnew head hhead).symm
    · exact hpw.1 node hnode

/-- **`list_add_tail`** puts a new node behind the list. -/
theorem listAddTail_spec (hs : Direct own s) (h : ListAt own s.mem head nodes)
    (hown : own new ∧ own (new + 4)) (hnew : ∀ node ∈ head :: nodes, NodesApart new node) :
    ∃ mem, listAddTail s new head = .ok { s with mem := mem } ∧
      ListAt own mem head (nodes ++ [new]) ∧
      ∀ x, ¬ NodeWord (new :: head :: nodes) x → mem x = s.mem x := by
  have hhead : head ∈ head :: nodes := List.mem_cons_self ..
  have hprev : s.mem head ∈ head :: nodes := h.ring.path.prev_mem
  have hfresh : new ∉ head :: nodes := by
    intro hmem
    have := hnew new hmem
    unfold NodesApart at this
    omega
  refine ⟨addedMem s.mem new (s.mem head) head, ?_, ⟨?_, ?_, ?_⟩, fun x hx =>
    addedMem_of_not_nodeWord hprev hhead hx⟩
  · rw [listAddTail, hs.load (h.words head hhead).1, Run.ok_bind]
    exact listAddBetween_eq hs hown (h.words _ hprev).2 (h.words head hhead).1
  · exact h.ring.insert_back hfresh (inserted_addedMem h hprev hhead hnew)
  · intro node hnode
    rw [← List.cons_append, List.mem_append, List.mem_singleton] at hnode
    rcases hnode with hnode | rfl
    · exact h.words node hnode
    · exact hown
  · rw [← List.cons_append, List.pairwise_append]
    refine ⟨h.apart, List.pairwise_singleton .., fun a ha b hb => ?_⟩
    rw [List.mem_singleton.mp hb]
    exact (hnew a ha).symm

/-- The memory after `__list_del`. -/
def joinedMem (mem : ℕ → ℕ) (prev next : ℕ) : ℕ → ℕ :=
  Function.update (Function.update mem next prev) (prev + 4) next

/-- The links after `__list_del` between two nodes of a list. -/
theorem joined_joinedMem {others : List ℕ} (hpw : others.Pairwise NodesApart) {prev next : ℕ}
    (hprev : prev ∈ others) (hnext : next ∈ others) :
    Links.Joined (linksOf mem) (linksOf (joinedMem mem prev next)) others prev next := by
  have hcase : ∀ a ∈ others, ∀ b ∈ others, a = b ∨ NodesApart a b := by
    intro a ha b hb
    by_cases hab : a = b
    · exact .inl hab
    · have hsymm : Std.Symm NodesApart := ⟨fun _ _ h => h.symm⟩
      exact .inr (hpw.forall ha hb hab)
  have hpn := hcase prev hprev next hnext
  unfold NodesApart at *
  constructor
  case next_left => simp [linksOf, joinedMem]
  case prev_right =>
    simp only [linksOf, joinedMem, Function.update_apply]
    rw [if_neg (by omega), if_pos trivial]
  case next_other =>
    intro node hnode hne
    have hp := hcase node hnode prev hprev
    have hn := hcase node hnode next hnext
    simp only [linksOf, joinedMem, Function.update_apply]
    rw [if_neg (by omega), if_neg (by omega)]
  case prev_other =>
    intro node hnode hne
    have hp := hcase node hnode prev hprev
    have hn := hcase node hnode next hnext
    simp only [linksOf, joinedMem, Function.update_apply]
    rw [if_neg (by omega), if_neg (by omega)]

/-- **`list_del`** takes a node out of the list, and changes words of the other nodes only. -/
theorem listDel_spec {front back : List ℕ} (hs : Direct own s)
    (h : ListAt own s.mem head (front ++ node :: back)) :
    ∃ mem, listDel s node = .ok { s with mem := mem } ∧ ListAt own mem head (front ++ back) ∧
      ∀ x, ¬ NodeWord (head :: (front ++ back)) x → mem x = s.mem x := by
  obtain ⟨hprev, hnext⟩ := h.ring.neighbours
  simp only [linksOf] at hprev hnext
  have hsub : (head :: (front ++ back)).Sublist (head :: (front ++ node :: back)) :=
    ((List.Sublist.refl front).append (List.sublist_cons_self node back)).cons_cons head
  have hwords : ∀ y ∈ head :: (front ++ back), own y ∧ own (y + 4) := fun y hy =>
    h.words y (hsub.subset hy)
  have hnode := h.words node (by simp)
  have hpw := h.apart.sublist hsub
  refine ⟨joinedMem s.mem (s.mem node) (s.mem (node + 4)), ?_, ⟨?_, hwords, hpw⟩, fun x hx => ?_⟩
  · have h₁ := hs.update (hwords _ hnext).1 (s.mem node)
    rw [listDel, hs.load hnode.1, Run.ok_bind, hs.load hnode.2, Run.ok_bind, listDelBetween,
      hs.store (hwords _ hnext).1, Run.ok_bind, h₁.store (hwords _ hprev).2]
    rfl
  · exact h.ring.remove (joined_joinedMem hpw hprev hnext)
  · simp only [joinedMem, Function.update_apply]
    rw [if_neg fun heq => hx ⟨_, hprev, .inr heq⟩, if_neg fun heq => hx ⟨_, hnext, .inl heq⟩]

/-- The rest of a loop over a list. -/
theorem listForEach_path {α : Type} (hs : Direct own s)
    (hwords : ∀ y ∈ head :: nodes, own y ∧ own (y + 4)) {body : ℕ → Outcome (Option α)}
    {found : ℕ → Option α} (hbody : ∀ y ∈ nodes, body y = .ok (found y)) {a fuel : ℕ}
    (hpath : (linksOf s.mem).Path a nodes head) (hfuel : nodes.length < fuel)
    (hhead : head ∉ nodes) :
    listForEach s head body fuel (s.mem (a + 4)) = .ok (nodes.findSome? found) := by
  induction nodes generalizing a fuel with
  | nil =>
    obtain ⟨fuel, rfl⟩ : ∃ n, fuel = n + 1 := ⟨fuel - 1, by simp only [List.length_nil] at hfuel; omega⟩
    have hnext : s.mem (a + 4) = head := hpath.1
    rw [listForEach, if_pos hnext]
    rfl
  | cons x nodes ih =>
    obtain ⟨fuel, rfl⟩ : ∃ n, fuel = n + 1 := ⟨fuel - 1, by simp only [List.length_cons] at hfuel; omega⟩
    have hnext : s.mem (a + 4) = x := hpath.1.1
    have hne : x ≠ head := fun heq => hhead (by simp [heq])
    have hx : x ∈ head :: x :: nodes := by simp
    rw [listForEach, hnext, if_neg hne, hbody x (List.mem_cons_self ..), Run.ok_bind,
      List.findSome?_cons]
    cases found x with
    | some r => rfl
    | none =>
      simp only [hs.load (hwords x hx).2, Run.ok_bind]
      refine ih (fun y hy => hwords y ?_) (fun y hy => hbody y (List.mem_cons_of_mem _ hy)) hpath.2
        (by simp only [List.length_cons] at hfuel; omega) fun hmem => hhead (List.mem_cons_of_mem _ hmem)
      rcases List.mem_cons.mp hy with rfl | hy
      · exact List.mem_cons_self ..
      · exact List.mem_cons_of_mem _ (List.mem_cons_of_mem _ hy)

/-- **`list_for_each`** visits the nodes of the list in order, until the body ends the loop. -/
theorem listForEach_eq {α : Type} (hs : Direct own s) (h : ListAt own s.mem head nodes)
    {body : ℕ → Outcome (Option α)} {found : ℕ → Option α}
    (hbody : ∀ y ∈ nodes, body y = .ok (found y)) (hlen : nodes.length < listRounds) :
    listForEach s head body listRounds (s.mem (head + 4)) = .ok (nodes.findSome? found) :=
  listForEach_path hs h.words hbody h.ring.path hlen (List.nodup_cons.mp h.ring.nodup).1

/-- There are fewer nodes than addresses. -/
theorem ListAt.length_lt (h : ListAt own mem head nodes)
    (hlt : ∀ x, own x → x < 4294967296) : nodes.length < listRounds := by
  have hcard := List.toFinset_card_of_nodup h.ring.nodup
  have hsub : (head :: nodes).toFinset ⊆ Finset.range 4294967296 := by
    intro x hx
    exact Finset.mem_range.mpr (hlt x (h.words x (List.mem_toFinset.mp hx)).1)
  have hle := Finset.card_le_card hsub
  rw [hcard, Finset.card_range, List.length_cons] at hle
  unfold listRounds
  omega

/-- A search that returns the record of the first node with a property. -/
theorem findSome?_if {α β : Type} (p : α → Prop) [DecidablePred p] (f : α → β) (l : List α) :
    (l.findSome? fun a => if p a then some (f a) else none) = (l.find? p).map f := by
  induction l with
  | nil => rfl
  | cons a l ih =>
    rw [List.findSome?_cons, List.find?_cons, ih]
    by_cases ha : p a <;> simp [ha]

/-- **A loop over a list of records**: the body loads fields of the record around the node, and
the loop ends with the first record that has the property. -/
theorem listForEach_records {α : Type} {records : List α} {node : α → ℕ}
    (hs : Direct own s) (hl : ListAt own s.mem head (records.map node))
    (hlt : ∀ x, own x → x < 4294967296) {p : α → Prop} [DecidablePred p] {f : α → ℕ}
    {body : ℕ → Outcome (Option ℕ)}
    (hbody : ∀ a ∈ records, body (node a) = .ok (if p a then some (f a) else none)) :
    listForEach s head body listRounds (s.mem (head + 4)) = .ok ((records.find? p).map f) := by
  have hfound : ∀ y ∈ records.map node, body y =
      .ok ((match body y with | .ok r => r | .error _ => none) : Option ℕ) := by
    intro y hy
    obtain ⟨a, ha, rfl⟩ := List.mem_map.mp hy
    rw [hbody a ha]
  rw [listForEach_eq hs hl hfound (hl.length_lt hlt), List.findSome?_map, ← findSome?_if]
  rw [← List.head?_filterMap, ← List.head?_filterMap, List.filterMap_congr fun a ha => ?_]
  rw [Function.comp_apply, hbody a ha]

end Lists

end Ahos
