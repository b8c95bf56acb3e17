import Ahos.Kernel.List
import Ahos.Lib.Run

/-!
# Runs of list operations

Several lists share a memory. A run of `list_add`, `list_add_tail` and `list_del` does on the memory
what it does on the lists of their nodes: each operation changes one list and leaves the other ones
alone, and a node that has left a list can enter another one.
-/

namespace Ahos

/-! ## Operations -/

/-- A call of a function of `list.h`. -/
inductive ListOp where
  | add (node head : ℕ)
  | addTail (node head : ℕ)
  | del (node : ℕ)
deriving DecidableEq, Repr

/-- The call. -/
def Machine.listOp (s : Machine) : ListOp → Outcome Machine
  | .add node head => listAdd s node head
  | .addTail node head => listAddTail s node head
  | .del node => listDel s node

/-- The call, on the nodes of the lists. -/
def ListOp.apply (lists : ℕ → List ℕ) : ListOp → ℕ → List ℕ
  | .add node head => Function.update lists head (node :: lists head)
  | .addTail node head => Function.update lists head (lists head ++ [node])
  | .del node => fun head => (lists head).erase node

/-- The node has words of its own, apart from those of the lists. -/
def FreshNode (own : ℕ → Prop) (heads : List ℕ) (lists : ℕ → List ℕ) (node : ℕ) : Prop :=
  (own node ∧ own (node + 4)) ∧ ∀ head ∈ heads, ∀ y ∈ head :: lists head, NodesApart node y

/-- What the caller of the function sees to. -/
def ListOp.Proper (own : ℕ → Prop) (heads : List ℕ) (lists : ℕ → List ℕ) : ListOp → Prop
  | .add node head => head ∈ heads ∧ FreshNode own heads lists node
  | .addTail node head => head ∈ heads ∧ FreshNode own heads lists node
  | .del node => ∃ head ∈ heads, node ∈ lists head

/-- Each call of the run is proper. -/
def ListOp.ProperRun (own : ℕ → Prop) (heads : List ℕ) : (ℕ → List ℕ) → List ListOp → Prop
  | _, [] => True
  | lists, op :: ops => op.Proper own heads lists ∧ ProperRun own heads (op.apply lists) ops

/-- The lists with these heads in memory, apart from each other. -/
structure ListsAt (own : ℕ → Prop) (mem : ℕ → ℕ) (heads : List ℕ) (lists : ℕ → List ℕ) : Prop where
  each : ∀ head ∈ heads, ListAt own mem head (lists head)
  apart : ∀ a ∈ heads, ∀ b ∈ heads, a ≠ b →
    ∀ x ∈ a :: lists a, ∀ y ∈ b :: lists b, NodesApart x y

section Runs

variable {own : ℕ → Prop} {s : Machine} {mem mem' : ℕ → ℕ} {heads : List ℕ}
  {lists lists' : ℕ → List ℕ} {head node : ℕ}

/-! ## Steps -/

/-- The words of nodes that are apart from others are not words of these. -/
theorem not_nodeWord_of_apart {xs ys : List ℕ} (h : ∀ x ∈ xs, ∀ y ∈ ys, NodesApart x y) {a : ℕ}
    (ha : NodeWord ys a) : ¬NodeWord xs a := by
  rintro ⟨x, hx, hxa⟩
  obtain ⟨y, hy, hya⟩ := ha
  have hxy := h x hx y hy
  unfold NodesApart at hxy
  omega

/-- Only the lists of the heads matter. -/
theorem ListsAt.congr (h : ListsAt own mem heads lists)
    (hlists : ∀ head ∈ heads, lists' head = lists head) : ListsAt own mem heads lists' := by
  constructor
  case each =>
    intro head hhead
    rw [hlists head hhead]
    exact h.each head hhead
  case apart =>
    intro a ha b hb
    rw [hlists a ha, hlists b hb]
    exact h.apart a ha b hb

/-- **Frame rule**: the other lists stay when one list and words near it change. -/
theorem ListsAt.replace (h : ListsAt own mem heads lists) {nodes touched : List ℕ}
    (hlist : ListAt own mem' head nodes) (hnodes : ∀ x ∈ head :: nodes, x ∈ touched)
    (htouched : ∀ b ∈ heads, b ≠ head → ∀ x ∈ touched, ∀ y ∈ b :: lists b, NodesApart x y)
    (hmem : ∀ x, ¬NodeWord touched x → mem' x = mem x) :
    ListsAt own mem' heads (Function.update lists head nodes) := by
  constructor
  case each =>
    intro b hb
    by_cases hhead : b = head
    · rw [hhead, Function.update_self]
      exact hlist
    · rw [Function.update_of_ne hhead]
      exact (h.each b hb).congr fun x hx =>
        hmem x (not_nodeWord_of_apart (htouched b hb hhead) hx)
  case apart =>
    intro a ha b hb hab x hx y hy
    by_cases hahead : a = head
    · have hbhead : b ≠ head := fun heq => hab (hahead.trans heq.symm)
      rw [hahead, Function.update_self] at hx
      rw [Function.update_of_ne hbhead] at hy
      exact htouched b hb hbhead x (hnodes x hx) y hy
    · rw [Function.update_of_ne hahead] at hx
      by_cases hbhead : b = head
      · rw [hbhead, Function.update_self] at hy
        exact (htouched a ha hahead y (hnodes y hy) x hx).symm
      · rw [Function.update_of_ne hbhead] at hy
        exact h.apart a ha b hb hab x hx y hy

/-- A new node, wherever it is put in its list. -/
theorem ListsAt.insert (h : ListsAt own mem heads lists) (hhead : head ∈ heads)
    (hfresh : FreshNode own heads lists node) {nodes : List ℕ} (hlist : ListAt own mem' head nodes)
    (hnodes : ∀ x ∈ nodes, x = node ∨ x ∈ lists head)
    (hmem : ∀ x, ¬NodeWord (node :: head :: lists head) x → mem' x = mem x) :
    ListsAt own mem' heads (Function.update lists head nodes) ∧ ∀ x, ¬own x → mem' x = mem x := by
  refine ⟨h.replace hlist ?_ ?_ hmem, fun x hx => hmem x ?_⟩
  · intro x hx
    obtain rfl | hx := List.mem_cons.mp hx
    · exact List.mem_cons_of_mem _ (List.mem_cons_self ..)
    · obtain rfl | hx := hnodes x hx
      · exact List.mem_cons_self ..
      · exact List.mem_cons_of_mem _ (List.mem_cons_of_mem _ hx)
  · intro b hb hne x hx y hy
    obtain rfl | hx := List.mem_cons.mp hx
    · exact hfresh.2 b hb y hy
    · exact h.apart head hhead b hb (Ne.symm hne) x hx y hy
  · rintro ⟨y, hy, hxy⟩
    have hown : own y ∧ own (y + 4) := by
      obtain rfl | hy := List.mem_cons.mp hy
      · exact hfresh.1
      · exact (h.each head hhead).words y hy
    obtain rfl | rfl := hxy
    · exact hx hown.1
    · exact hx hown.2

/-- A node leaves its list. -/
theorem ListsAt.remove (h : ListsAt own mem heads lists) (hhead : head ∈ heads)
    (hnode : node ∈ lists head) (hlist : ListAt own mem' head ((lists head).erase node))
    (hmem : ∀ x, ¬NodeWord (head :: (lists head).erase node) x → mem' x = mem x) :
    ListsAt own mem' heads (fun b => (lists b).erase node) ∧ ∀ x, ¬own x → mem' x = mem x := by
  have hsub : ∀ x ∈ head :: (lists head).erase node, x ∈ head :: lists head :=
    fun x hx => List.cons_subset_cons _ List.erase_subset hx
  have hreplaced := h.replace hlist (fun _ hx => hx)
    (fun b hb hne x hx => h.apart head hhead b hb (Ne.symm hne) x (hsub x hx)) hmem
  refine ⟨hreplaced.congr fun b hb => ?_, fun x hx => hmem x ?_⟩
  · by_cases hbhead : b = head
    · rw [hbhead, Function.update_self]
    · -- The node is in one list only.
      have hnot : node ∉ lists b := by
        intro hmem'
        have hself := h.apart head hhead b hb (Ne.symm hbhead) node
          (List.mem_cons_of_mem _ hnode) node (List.mem_cons_of_mem _ hmem')
        unfold NodesApart at hself
        omega
      rw [Function.update_of_ne hbhead]
      exact List.erase_of_not_mem hnot
  · rintro ⟨y, hy, hxy⟩
    have hown := (h.each head hhead).words y (hsub y hy)
    obtain rfl | rfl := hxy
    · exact hx hown.1
    · exact hx hown.2

/-- **Step lemma**: a call does on the memory what it does on the lists, and writes words of the
nodes only. -/
theorem ListsAt.step (hs : Direct own s) (h : ListsAt own s.mem heads lists) {op : ListOp}
    (hop : op.Proper own heads lists) :
    ∃ mem, s.listOp op = .ok { s with mem := mem } ∧ ListsAt own mem heads (op.apply lists) ∧
      ∀ x, ¬own x → mem x = s.mem x := by
  cases op with
  | add node head =>
    obtain ⟨hhead, hfresh⟩ := hop
    obtain ⟨mem, hadd, hlist, hmem⟩ :=
      listAdd_spec hs (h.each head hhead) hfresh.1 (hfresh.2 head hhead)
    exact ⟨mem, hadd, h.insert hhead hfresh hlist (fun x hx => List.mem_cons.mp hx) hmem⟩
  | addTail node head =>
    obtain ⟨hhead, hfresh⟩ := hop
    obtain ⟨mem, hadd, hlist, hmem⟩ :=
      listAddTail_spec hs (h.each head hhead) hfresh.1 (hfresh.2 head hhead)
    refine ⟨mem, hadd, h.insert hhead hfresh hlist (fun x hx => ?_) hmem⟩
    obtain hx | hx := List.mem_append.mp hx
    · exact .inr hx
    · exact .inl (List.mem_singleton.mp hx)
  | del node =>
    obtain ⟨head, hhead, hnode⟩ := hop
    obtain ⟨front, back, hfront, hnodes, herase⟩ := List.exists_erase_eq hnode
    have hat := h.each head hhead
    rw [hnodes] at hat
    obtain ⟨mem, hdel, hlist, hmem⟩ := listDel_spec hs hat
    rw [← herase] at hlist hmem
    exact ⟨mem, hdel, h.remove hhead hnode hlist hmem⟩

/-! ## Runs -/

/-- The lists after a run. -/
theorem ListsAt.run (hs : Direct own s) (h : ListsAt own s.mem heads lists) {ops : List ListOp}
    (hops : ListOp.ProperRun own heads lists ops) :
    ∃ mem, Run.run Machine.listOp s ops = .ok { s with mem := mem } ∧
      ListsAt own mem heads (ops.foldl ListOp.apply lists) ∧ ∀ x, ¬own x → mem x = s.mem x := by
  induction ops generalizing s lists with
  | nil => exact ⟨s.mem, rfl, h, fun _ _ => rfl⟩
  | cons op ops ih =>
    obtain ⟨mem₁, hop, h₁, hmem₁⟩ := h.step hs hops.1
    obtain ⟨mem₂, hrun, h₂, hmem₂⟩ := ih (hs.of_mem hmem₁) h₁ hops.2
    refine ⟨mem₂, ?_, h₂, fun x hx => (hmem₂ x hx).trans (hmem₁ x hx)⟩
    rw [Run.run_cons, hop, Run.ok_bind, hrun]

/-- **Lists in memory are lists.** After any run of `list_add`, `list_add_tail` and `list_del` on
lists that share a memory, `list_empty` and `list_for_each` find in each list the nodes that the
operations have left in it, in their order, and no word outside of the nodes has changed. -/
theorem list_run_refines (hs : Direct own s) (hown : ∀ x, own x → x < 4294967296)
    (h : ListsAt own s.mem heads lists) {ops : List ListOp}
    (hops : ListOp.ProperRun own heads lists ops) :
    ∃ t, Run.run Machine.listOp s ops = .ok t ∧ (∀ x, ¬own x → t.mem x = s.mem x) ∧
      ∀ head ∈ heads, let nodes := ops.foldl ListOp.apply lists head
        listEmpty t head = .ok (decide (nodes = [])) ∧
        ∀ {α : Type} (found : ℕ → Option α),
          listForEach t head (fun node => .ok (found node)) listRounds (t.mem (head + 4)) =
            .ok (nodes.findSome? found) := by
  obtain ⟨mem, hrun, hlists, hmem⟩ := h.run hs hops
  refine ⟨_, hrun, hmem, fun head hhead => ?_⟩
  have hdirect := hs.of_mem hmem
  have hat := hlists.each head hhead
  exact ⟨listEmpty_eq hdirect hat,
    fun found => listForEach_eq hdirect hat (fun _ _ => rfl) (hat.length_lt hown)⟩

/-- A machine without paging, with two empty lists at `0x1000` and `0x1010`. -/
def twoEmptyLists : Machine where
  mem := fun x => if x < 0x1008 then 0x1000 else 0x1010
  pfa := []
  pageDirectory := 0
  pagingEnabled := false
  cr3 := 0
  cr0Pg := false

/-- Two nodes enter the first list, and one of them moves to the second one. -/
theorem list_run_refines_move :
    ∃ t, Run.run Machine.listOp twoEmptyLists
        [.add 0x1020 0x1000, .addTail 0x1030 0x1000, .del 0x1020, .addTail 0x1020 0x1010] = .ok t ∧
      listForEach t 0x1000 (fun node => .ok (some node)) listRounds (t.mem 0x1004) =
        .ok (some 0x1030) ∧
      listForEach t 0x1010 (fun node => .ok (some node)) listRounds (t.mem 0x1014) =
        .ok (some 0x1020) := by
  have hdirect : Direct (· < 0x2000) twoEmptyLists := fun _ _ _ _ => rfl
  have hlists : ListsAt (· < 0x2000) twoEmptyLists.mem [0x1000, 0x1010] fun _ => [] := by
    constructor
    case each =>
      intro head hhead
      obtain rfl | rfl : head = 0x1000 ∨ head = 0x1010 := by simpa using hhead
      all_goals exact ⟨Links.ring_nil.mpr ⟨rfl, rfl⟩, by simp, by simp⟩
    case apart => simp [NodesApart]
  have hops : ListOp.ProperRun (· < 0x2000) [0x1000, 0x1010] (fun _ => [])
      [.add 0x1020 0x1000, .addTail 0x1030 0x1000, .del 0x1020, .addTail 0x1020 0x1010] := by
    simp [ListOp.ProperRun, ListOp.Proper, ListOp.apply, FreshNode, NodesApart,
      Function.update_apply]
  obtain ⟨t, hrun, -, hlists⟩ :=
    list_run_refines hdirect (fun x hx => Nat.lt_trans hx (by decide)) hlists hops
  exact ⟨t, hrun, (hlists 0x1000 (by simp)).2 some, (hlists 0x1010 (by simp)).2 some⟩

end Runs

end Ahos
