import Mathlib.Data.List.Basic
import Mathlib.Logic.Relation

/-!
# Runs of fallible step functions

A step function takes a state and a label and either returns the next state or
halts with an error. A run folds it over a list of labels; the first error ends
the run. The rules below carry a property of states from one step to a whole
run, and to the states that a machine without labels goes through.
`Returns bad x post` is the specification of a computation: its result
satisfies `post`, and if it halts, the error is one of `bad`.
-/

namespace Run

universe u v w

variable {ε : Type u} {σ α β : Type v} {l : Type w}

/-- A bind that succeeds splits into its two successful halves. -/
theorem bind_eq_ok {x : Except ε α} {f : α → Except ε β} {b : β} :
    x >>= f = .ok b ↔ ∃ a, x = .ok a ∧ f a = .ok b := by
  cases x with
  | error e => simp [bind, Except.bind]
  | ok a => simp [bind, Except.bind]

@[simp] theorem ok_bind (a : α) (f : α → Except ε β) : (Except.ok a : Except ε α) >>= f = f a := rfl

@[simp] theorem error_bind (e : ε) (f : α → Except ε β) :
    (Except.error e : Except ε α) >>= f = .error e := rfl

/-- What follows may be replaced by something that returns at least as often. -/
theorem bind_ok_mono {x : Except ε α} {f g : α → Except ε β} {b : β}
    (hfg : ∀ a, f a = .ok b → g a = .ok b) (h : x >>= f = .ok b) : x >>= g = .ok b := by
  obtain ⟨a, hx, ha⟩ := bind_eq_ok.mp h
  exact bind_eq_ok.mpr ⟨a, hx, hfg a ha⟩

/-- A bind fails in neither half. -/
theorem bind_ne_error {x : Except ε α} {f : α → Except ε β} {e : ε} (hx : x ≠ .error e)
    (hf : ∀ a, x = .ok a → f a ≠ .error e) : x >>= f ≠ .error e := by
  cases x with
  | error e' => exact fun h => hx (congrArg Except.error (Except.error.inj h))
  | ok a => exact hf a rfl

/-- A part of the result, which can be evaluated when the result cannot. -/
theorem exists_of_map {x : Except ε α} {f : α → β} {b : β} (h : x.map f = .ok b) :
    ∃ a, x = .ok a ∧ f a = b := by
  cases x with
  | error e => cases h
  | ok a => exact ⟨a, rfl, Except.ok.inj h⟩

@[simp] theorem pure_eq (a : α) : (pure a : Except ε α) = .ok a := rfl

/-- The run of `step` over the labels, from the first to the last. -/
def run (step : σ → l → Except ε σ) (s : σ) (ops : List l) : Except ε σ := ops.foldlM step s

@[simp] theorem run_nil (step : σ → l → Except ε σ) (s : σ) : run step s [] = .ok s := rfl

theorem run_cons (step : σ → l → Except ε σ) (s : σ) (op : l) (ops : List l) :
    run step s (op :: ops) = step s op >>= fun t => run step t ops := rfl

/-- A run of a longer list is a run of its first part followed by one of the rest. -/
theorem run_append (step : σ → l → Except ε σ) (s : σ) (ops ops' : List l) :
    run step s (ops ++ ops') = run step s ops >>= fun t => run step t ops' := by
  simp [run, List.foldlM_append]

/-- **Invariant rule**: what every step preserves, every run preserves. -/
theorem run_invariant {step : σ → l → Except ε σ} {I : σ → Prop} {ops : List l}
    (hstep : ∀ s op s', op ∈ ops → I s → step s op = .ok s' → I s')
    {s s' : σ} (hs : I s) (hrun : run step s ops = .ok s') : I s' := by
  induction ops generalizing s with
  | nil =>
    rw [run_nil] at hrun
    cases hrun
    exact hs
  | cons op ops ih =>
    rw [run_cons, bind_eq_ok] at hrun
    obtain ⟨t, ht, hrest⟩ := hrun
    exact ih (fun a b c hb => hstep a b c (List.mem_cons_of_mem _ hb))
      (hstep s op t (List.mem_cons_self ..) hs ht) hrest

/-- **Total invariant rule**: if every step is defined and preserves the invariant, so does every
run. -/
theorem run_total {step : σ → l → Except ε σ} {I : σ → Prop}
    (hstep : ∀ s op, I s → ∃ s', step s op = .ok s' ∧ I s') {s : σ} (hs : I s) (ops : List l) :
    ∃ s', run step s ops = .ok s' ∧ I s' := by
  induction ops generalizing s with
  | nil => exact ⟨s, rfl, hs⟩
  | cons op ops ih =>
    obtain ⟨t, ht, hinv⟩ := hstep s op hs
    obtain ⟨s', hrun, hs'⟩ := ih hinv
    exact ⟨s', by rw [run_cons, ht, ok_bind, hrun], hs'⟩

/-- A loop whose rounds do not halt. -/
theorem foldlM_ok {f : σ → l → Except ε σ} {g : σ → l → σ} {ops : List l}
    (h : ∀ op ∈ ops, ∀ s, f s op = .ok (g s op)) {s : σ} :
    ops.foldlM f s = .ok (ops.foldl g s) := by
  induction ops generalizing s with
  | nil => rfl
  | cons op ops ih =>
    rw [List.foldlM_cons, h op (List.mem_cons_self ..), ok_bind, List.foldl_cons]
    exact ih fun op hop => h op (List.mem_cons_of_mem _ hop)

/-! ## Machines -/

section Machines

variable {τ : Type w} {step : σ → Except ε σ} {step' : τ → Except ε τ} {f : σ → τ}

/-- The states that a machine goes through. -/
def Reaches (step : σ → Except ε σ) : σ → σ → Prop :=
  Relation.ReflTransGen fun s t => step s = .ok t

/-- **Invariant rule**: what every step preserves holds in every state that the machine goes
through. -/
theorem Reaches.invariant {I : σ → Prop} (hstep : ∀ s t, I s → step s = .ok t → I t) {s t : σ}
    (h : Reaches step s t) (hs : I s) : I t := by
  induction h with
  | refl => exact hs
  | tail _ ht ih => exact hstep _ _ ih ht

/-- **Simulation rule**: if a second machine does on the images of the states that the first one
goes through what the first one does, it goes through these images and no other states. -/
theorem reaches_map_iff {s : σ}
    (h : ∀ t, Reaches step s t → step' (f t) = (step t).map f) {u : τ} :
    Reaches step' (f s) u ↔ ∃ t, Reaches step s t ∧ u = f t := by
  constructor
  · intro hu
    induction hu with
    | refl => exact ⟨s, .refl, rfl⟩
    | tail _ hstep ih =>
      obtain ⟨t, ht, rfl⟩ := ih
      rw [h t ht] at hstep
      cases hnext : step t with
      | error e =>
        rw [hnext] at hstep
        cases hstep
      | ok t' =>
        rw [hnext] at hstep
        exact ⟨t', ht.tail hnext, (Except.ok.inj hstep).symm⟩
  · rintro ⟨t, ht, rfl⟩
    induction ht with
    | refl => exact .refl
    | @tail t t' ht hstep ih =>
      refine ih.tail ?_
      rw [h t ht, hstep]
      rfl

end Machines

/-! ## Specifications -/

/-- The computation returns a result with the property `post`, or halts with an error in `bad`. -/
def Returns (bad : ε → Prop) (x : Except ε α) (post : α → Prop) : Prop :=
  (∀ a, x = .ok a → post a) ∧ ∀ e, x = .error e → bad e

section Returns

variable {bad : ε → Prop}

theorem returns_ok {a : α} {post : α → Prop} (h : post a) : Returns bad (.ok a) post := by
  refine ⟨fun b hb => ?_, fun e he => ?_⟩
  · obtain rfl := Except.ok.inj hb
    exact h
  · cases he

/-- **Sequence rule**: the result of the first half satisfies what the second half needs. -/
theorem Returns.bind {x : Except ε α} {f : α → Except ε β} {mid : α → Prop} {post : β → Prop}
    (hx : Returns bad x mid) (hf : ∀ a, mid a → Returns bad (f a) post) :
    Returns bad (x >>= f) post := by
  cases x with
  | error e =>
    refine ⟨fun b hb => ?_, fun e' he => ?_⟩
    · cases hb
    · obtain rfl := Except.error.inj he
      exact hx.2 e rfl
  | ok a => exact hf a (hx.1 a rfl)

/-- **Consequence rule** for the property of the result. -/
theorem Returns.imp {x : Except ε α} {post post' : α → Prop} (hx : Returns bad x post)
    (h : ∀ a, post a → post' a) : Returns bad x post' :=
  ⟨fun a ha => h a (hx.1 a ha), hx.2⟩

/-- **Conjunction rule** for the property of the result. -/
theorem Returns.and {x : Except ε α} {post post' : α → Prop} (hx : Returns bad x post)
    (hx' : Returns bad x post') : Returns bad x fun a => post a ∧ post' a :=
  ⟨fun a ha => ⟨hx.1 a ha, hx'.1 a ha⟩, hx.2⟩

/-- **Loop rule**: what every step preserves, every run preserves, and the errors of a run are
errors of its steps. -/
theorem returns_run {step : σ → l → Except ε σ} {I : σ → Prop} {ops : List l}
    (hstep : ∀ s, ∀ op ∈ ops, I s → Returns bad (step s op) I) {s : σ} (hs : I s) :
    Returns bad (run step s ops) I := by
  induction ops generalizing s with
  | nil => exact returns_ok hs
  | cons op ops ih =>
    rw [run_cons]
    exact (hstep s op (List.mem_cons_self ..) hs).bind fun t ht =>
      ih (fun u op hop => hstep u op (List.mem_cons_of_mem _ hop)) ht

/-- **Refinement rule**: if every step keeps the state related to an abstract one, which `next`
updates, every run does. -/
theorem returns_run_foldl {γ : Type*} {step : σ → l → Except ε σ} {next : γ → l → γ}
    {R : γ → σ → Prop} (hstep : ∀ g s op, R g s → Returns bad (step s op) (R (next g op)))
    {g : γ} {s : σ} (hs : R g s) (ops : List l) :
    Returns bad (run step s ops) (R (ops.foldl next g)) := by
  induction ops generalizing g s with
  | nil => exact returns_ok hs
  | cons op ops ih =>
    rw [run_cons]
    exact (hstep g s op hs).bind fun t ht => ih ht

end Returns

/-! ## Answers -/

section Answers

variable {γ o : Type v}

/-- The run of a step function that answers each label: the answers, and the last state. -/
def answers (step : σ → l → Except ε (o × σ)) : σ → List l → Except ε (List o × σ)
  | s, [] => .ok ([], s)
  | s, op :: ops => do
    let (answer, s) ← step s op
    let (rest, s) ← answers step s ops
    return (answer :: rest, s)

/-- The same for a step function that does not halt. -/
def answersOf (next : γ → l → o × γ) : γ → List l → List o × γ
  | g, [] => ([], g)
  | g, op :: ops =>
    ((next g op).1 :: (answersOf next (next g op).2 ops).1, (answersOf next (next g op).2 ops).2)

/-- **Refinement rule** for answers: if every step answers what an abstract one does and keeps the
two states related, every run does. -/
theorem answers_refine {step : σ → l → Except ε (o × σ)} {next : γ → l → o × γ}
    {R : γ → σ → Prop}
    (hstep : ∀ g s op, R g s → ∃ t, step s op = .ok ((next g op).1, t) ∧ R (next g op).2 t)
    {g : γ} {s : σ} (hs : R g s) (ops : List l) :
    ∃ t, answers step s ops = .ok ((answersOf next g ops).1, t) ∧ R (answersOf next g ops).2 t := by
  induction ops generalizing g s with
  | nil => exact ⟨s, rfl, hs⟩
  | cons op ops ih =>
    obtain ⟨t, hop, ht⟩ := hstep g s op hs
    obtain ⟨u, hrun, hu⟩ := ih ht
    refine ⟨u, ?_, hu⟩
    rw [answers, hop, ok_bind]
    simp only [hrun, ok_bind]
    rfl

end Answers

/-! ## Simulations -/

/-- The second computation does what the first one does: it returns a related result, or halts
with the same error. -/
inductive Simulates {γ : Type w} (R : α → γ → Prop) : Except ε α → Except ε γ → Prop
  | ok {a : α} {c : γ} (h : R a c) : Simulates R (.ok a) (.ok c)
  | error (e : ε) : Simulates R (.error e) (.error e)

section Simulates

variable {γ δ : Type w} {R : α → γ → Prop} {S : β → δ → Prop}

/-- **Sequence rule** for simulations. -/
theorem Simulates.bind {x : Except ε α} {y : Except ε γ} {f : α → Except ε β}
    {g : γ → Except ε δ} (h : Simulates R x y) (hfg : ∀ a c, R a c → Simulates S (f a) (g c)) :
    Simulates S (x >>= f) (y >>= g) := by
  cases h with
  | ok h => exact hfg _ _ h
  | error e => exact .error e

/-- **Consequence rule** for simulations. -/
theorem Simulates.imp {R' : α → γ → Prop} {x : Except ε α} {y : Except ε γ}
    (h : Simulates R x y) (himp : ∀ a c, R a c → R' a c) : Simulates R' x y := by
  cases h with
  | ok h => exact .ok (himp _ _ h)
  | error e => exact .error e

theorem Simulates.exists_ok {a : α} {y : Except ε γ} (h : Simulates R (.ok a) y) :
    ∃ c, y = .ok c ∧ R a c := by
  cases h with
  | ok h => exact ⟨_, rfl, h⟩

theorem Simulates.eq_error {e : ε} {y : Except ε γ} (h : Simulates R (.error e) y) :
    y = .error e := by
  cases h with
  | error => rfl

/-- What is known about the first computation can be used for the relation. -/
theorem Simulates.and {bad : ε → Prop} {post : α → Prop} {x : Except ε α} {y : Except ε γ}
    (h : Simulates R x y) (hx : Returns bad x post) :
    Simulates (fun a c => post a ∧ R a c) x y := by
  cases h with
  | ok h => exact .ok ⟨hx.1 _ rfl, h⟩
  | error e => exact .error e

/-- The second computation keeps the specification of the first one. -/
theorem Simulates.returns {bad : ε → Prop} {post : α → Prop} {x : Except ε α} {y : Except ε γ}
    (h : Simulates R x y) (hx : Returns bad x post) :
    Returns bad y fun c => ∃ a, post a ∧ R a c := by
  cases h with
  | ok h => exact returns_ok ⟨_, hx.1 _ rfl, h⟩
  | error e =>
    refine ⟨fun c hc => ?_, fun e' he => ?_⟩
    · cases hc
    · obtain rfl := Except.error.inj he
      exact hx.2 e rfl

/-- **Loop rule** for simulations: what every step keeps, the whole run keeps. -/
theorem simulates_foldlM {step : α → l → Except ε α} {step' : γ → l → Except ε γ} {ops : List l}
    (hstep : ∀ a c, ∀ op ∈ ops, R a c → Simulates R (step a op) (step' c op)) {a : α} {c : γ}
    (h : R a c) : Simulates R (ops.foldlM step a) (ops.foldlM step' c) := by
  induction ops generalizing a c with
  | nil => exact .ok h
  | cons op ops ih =>
    rw [List.foldlM_cons, List.foldlM_cons]
    exact (hstep a c op (List.mem_cons_self ..) h).bind fun b d hbd =>
      ih (fun b d op hop => hstep b d op (List.mem_cons_of_mem _ hop)) hbd

end Simulates

/-! ## Room -/

/-- The computation takes place in a block of `size` cells, of which it needs `need`: if it has
them, it returns a result with the property `post`, and otherwise it halts with the error `bad`. -/
structure Needs (bad : ε) (size need : ℕ) (x : Except ε α) (post : α → Prop) : Prop where
  fits : need ≤ size → ∃ a, x = .ok a ∧ post a
  outgrows : size < need → x = .error bad

section Needs

variable {bad : ε} {size need : ℕ}

theorem needs_ok {a : α} {post : α → Prop} (h : post a) (hneed : need ≤ size) :
    Needs bad size need (.ok a) post :=
  ⟨fun _ => ⟨a, rfl, h⟩, fun hlt => absurd hneed (by omega)⟩

/-- **Sequence rule**: the second half needs at least as much as the first. -/
theorem Needs.bind {need' : ℕ} {x : Except ε α} {f : α → Except ε β} {mid : α → Prop}
    {post : β → Prop} (hx : Needs bad size need x mid) (hle : need ≤ need')
    (hf : need ≤ size → ∀ a, mid a → Needs bad size need' (f a) post) :
    Needs bad size need' (x >>= f) post := by
  by_cases hfit : need ≤ size
  · obtain ⟨a, rfl, ha⟩ := hx.fits hfit
    exact hf hfit a ha
  · rw [hx.outgrows (by omega)]
    exact ⟨fun h => absurd h (by omega), fun _ => rfl⟩

end Needs

end Run
