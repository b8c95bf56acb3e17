import Ahos.Libc.Printf.Defs

/-!
# `vsprintf` stops at the NUL

Whatever a format is, also one that ends in the middle of a directive, nothing behind its NUL is
read. The two runs of the code compared here read formats that differ behind their NUL only.
-/

namespace Ahos

/-! ## Runs that agree -/

/-- The two computations return related results, or both leave an array. -/
def Agrees {α β : Type} (R : α → β → Prop) (x : Outcome α) (y : Outcome β) : Prop :=
  (∃ a b, x = .ok a ∧ y = .ok b ∧ R a b) ∨ x = .error .outOfBounds ∧ y = .error .outOfBounds

section Agrees

variable {α β γ δ : Type} {R : α → β → Prop} {S : γ → δ → Prop}

theorem agrees_ok {a : α} {b : β} (h : R a b) : Agrees R (.ok a) (.ok b) :=
  .inl ⟨a, b, rfl, rfl, h⟩

theorem agrees_error : Agrees R (.error .outOfBounds) (.error .outOfBounds) := .inr ⟨rfl, rfl⟩

theorem Agrees.bind {x : Outcome α} {y : Outcome β} {f : α → Outcome γ} {g : β → Outcome δ}
    (h : Agrees R x y) (hfg : ∀ a b, R a b → Agrees S (f a) (g b)) :
    Agrees S (x >>= f) (y >>= g) := by
  obtain ⟨a, b, rfl, rfl, hab⟩ | ⟨rfl, rfl⟩ := h
  · exact hfg a b hab
  · exact agrees_error

/-- The same computation, on both sides. -/
theorem Agrees.bind_same {x : Outcome α} {f : α → Outcome γ} {g : α → Outcome δ}
    (h : Agrees Eq x x) (hfg : ∀ a, Agrees S (f a) (g a)) : Agrees S (x >>= f) (x >>= g) :=
  h.bind fun a _ hab => hab ▸ hfg a

theorem Agrees.imp {R' : α → β → Prop} {x : Outcome α} {y : Outcome β} (h : Agrees R x y)
    (himp : ∀ a b, R a b → R' a b) : Agrees R' x y := by
  obtain ⟨a, b, ha, hb, hab⟩ | herror := h
  · exact .inl ⟨a, b, ha, hb, himp a b hab⟩
  · exact .inr herror

theorem agrees_ite {p : Prop} [Decidable p] {x x' : Outcome α} {y y' : Outcome β}
    (h : p → Agrees R x y) (h' : ¬p → Agrees R x' y') :
    Agrees R (if p then x else x') (if p then y else y') := by
  split_ifs with hp
  · exact h hp
  · exact h' hp

theorem Agrees.eq {x y : Outcome α} (h : Agrees Eq x y) : x = y := by
  obtain ⟨a, b, rfl, rfl, rfl⟩ | ⟨rfl, rfl⟩ := h
  · rfl
  · rfl

theorem Agrees.eq_outOfBounds {x : Outcome α} {y : Outcome β} (h : Agrees R x y) {e : Halt}
    (he : x = .error e) : e = .outOfBounds := by
  obtain ⟨a, b, rfl, rfl, -⟩ | ⟨rfl, rfl⟩ := h
  · cases he
  · exact (Except.error.inj he).symm

end Agrees

/-! ## Code that does not read the format -/

theorem readCell_agrees {α : Type} (cells : List α) (i : ℕ) :
    Agrees Eq (readCell cells i) (readCell cells i) := by
  unfold readCell
  cases cells[i]? with
  | none => exact agrees_error
  | some c => exact agrees_ok rfl

theorem vaArg_agrees (args : List ℕ) : Agrees Eq (vaArg args) (vaArg args) := by
  cases args with
  | nil => exact agrees_error
  | cons arg args => exact agrees_ok rfl

theorem tmpDigits_agrees (base : ℕ) (locase : UInt8) (left num : ℕ) :
    Agrees Eq (tmpDigits base locase left num) (tmpDigits base locase left num) := by
  induction left generalizing num with
  | zero =>
    unfold tmpDigits
    split_ifs
    · exact agrees_ok rfl
    · exact agrees_error
  | succ left ih =>
    unfold tmpDigits
    split_ifs
    · exact agrees_ok rfl
    · exact (readCell_agrees _ _).bind_same fun digit =>
        (ih (num / base)).bind_same fun rest => agrees_ok rfl

theorem numberTmp_agrees (base : ℕ) (locase : UInt8) (num : ℕ) :
    Agrees Eq (numberTmp base locase num) (numberTmp base locase num) := by
  unfold numberTmp
  split_ifs
  · exact agrees_ok rfl
  · exact tmpDigits_agrees base locase 66 num

theorem writeNumber_agrees (num base : ℕ) (size precision : ℤ) (type : PrintFlags) :
    Agrees Eq (writeNumber num base size precision type)
      (writeNumber num base size precision type) := by
  have hnumber : Agrees Eq (number num base size precision type)
      (number num base size precision type) := by
    unfold number
    by_cases hbase : base < 2 ∨ 16 < base
    · rw [if_pos hbase]
      exact agrees_ok rfl
    · rw [if_neg hbase]
      exact (numberTmp_agrees _ _ _).bind_same fun tmp => agrees_ok rfl
  refine hnumber.bind_same fun text => ?_
  cases text with
  | none => exact agrees_error
  | some text => exact agrees_ok rfl

theorem strnlen_agrees (mem : List UInt8) (s maxlen : ℕ) :
    Agrees Eq (strnlen mem s maxlen) (strnlen mem s maxlen) := by
  have hfrom : ∀ (bytes : List UInt8) (len : ℕ),
      Agrees Eq (strnlenFrom maxlen len bytes) (strnlenFrom maxlen len bytes) := by
    intro bytes
    induction bytes with
    | nil => exact fun len => agrees_error
    | cons c bytes ih =>
      intro len
      unfold strnlenFrom
      split_ifs
      · exact ih (len + 1)
      · exact agrees_ok rfl
  exact hfrom _ 0

theorem emit_agrees (room : ℕ) (out text : List UInt8) :
    Agrees Eq (emit room out text) (emit room out text) := by
  unfold emit
  split_ifs
  · exact agrees_ok rfl
  · exact agrees_error

/-! ## Code that reads the format -/

section Formats

variable {post post' : List UInt8}

/-- What is left of two formats that differ behind the NUL, with no more than `v` in front of it. -/
def Rests (post post' v : List UInt8) (fmt fmt' : List UInt8) : Prop :=
  ∃ w, w <:+ v ∧ fmt = w ++ 0 :: post ∧ fmt' = w ++ 0 :: post'

theorem Rests.refl (v : List UInt8) : Rests post post' v (v ++ 0 :: post) (v ++ 0 :: post') :=
  ⟨v, List.suffix_refl v, rfl, rfl⟩

theorem Rests.cons {v fmt fmt' : List UInt8} (h : Rests post post' v fmt fmt') (c : UInt8) :
    Rests post post' (c :: v) fmt fmt' := by
  obtain ⟨w, hw, hfmt, hfmt'⟩ := h
  exact ⟨w, hw.trans (List.suffix_cons c v), hfmt, hfmt'⟩

theorem Rests.trans {u v fmt fmt' : List UInt8} (h : Rests post post' v fmt fmt') (huv : v <:+ u) :
    Rests post post' u fmt fmt' := by
  obtain ⟨w, hw, hfmt, hfmt'⟩ := h
  exact ⟨w, hw.trans huv, hfmt, hfmt'⟩

theorem skipAtoiFrom_agrees (v : List UInt8) (i : ℕ) :
    Agrees (fun a b => a.1 = b.1 ∧ Rests post post' v a.2 b.2)
      (skipAtoiFrom i (v ++ 0 :: post)) (skipAtoiFrom i (v ++ 0 :: post')) := by
  induction v generalizing i with
  | nil => exact agrees_ok ⟨rfl, .refl []⟩
  | cons c v ih =>
    simp only [List.cons_append, skipAtoiFrom]
    split_ifs
    · exact (ih _).imp fun a b hab => ⟨hab.1, hab.2.cons c⟩
    · exact agrees_ok ⟨rfl, .refl (c :: v)⟩

theorem readFlags_agrees (v : List UInt8) (flags : PrintFlags) :
    Agrees (fun a b => a.1 = b.1 ∧ Rests post post' v a.2 b.2)
      (readFlags flags (v ++ 0 :: post)) (readFlags flags (v ++ 0 :: post')) := by
  induction v generalizing flags with
  | nil => exact agrees_ok ⟨rfl, .refl []⟩
  | cons c v ih =>
    have hcons : ∀ flags, Agrees (fun a b => a.1 = b.1 ∧ Rests post post' (c :: v) a.2 b.2)
        (readFlags flags (v ++ 0 :: post)) (readFlags flags (v ++ 0 :: post')) :=
      fun flags => (ih flags).imp fun a b hab => ⟨hab.1, hab.2.cons c⟩
    simp only [List.cons_append, readFlags]
    split_ifs
    · exact hcons _
    · exact hcons _
    · exact hcons _
    · exact hcons _
    · exact hcons _
    · exact agrees_ok ⟨rfl, .refl (c :: v)⟩

theorem readWidth_agrees (v : List UInt8) (flags : PrintFlags) (args : List ℕ) :
    Agrees (fun a b => a.1 = b.1 ∧ a.2.1 = b.2.1 ∧ a.2.2.2 = b.2.2.2 ∧
        Rests post post' v a.2.2.1 b.2.2.1)
      (readWidth flags (v ++ 0 :: post) args) (readWidth flags (v ++ 0 :: post') args) := by
  cases v with
  | nil => exact agrees_ok ⟨rfl, rfl, rfl, .refl []⟩
  | cons c v =>
    unfold readWidth
    simp only [List.cons_append, peek, Run.ok_bind, List.tail_cons]
    split_ifs
    · refine (skipAtoiFrom_agrees (c :: v) 0).bind fun a b hab => ?_
      exact agrees_ok ⟨rfl, hab.1, rfl, hab.2⟩
    · exact (vaArg_agrees args).bind_same fun _ =>
        agrees_ite (fun _ => agrees_ok ⟨rfl, rfl, rfl, (Rests.refl v).cons c⟩)
          fun _ => agrees_ok ⟨rfl, rfl, rfl, (Rests.refl v).cons c⟩
    · exact agrees_ok ⟨rfl, rfl, rfl, .refl (c :: v)⟩

theorem readPrecision_agrees (v : List UInt8) (args : List ℕ) :
    Agrees (fun a b => a.1 = b.1 ∧ a.2.2 = b.2.2 ∧ Rests post post' v a.2.1 b.2.1)
      (readPrecision (v ++ 0 :: post) args) (readPrecision (v ++ 0 :: post') args) := by
  cases v with
  | nil => exact agrees_ok ⟨rfl, rfl, .refl []⟩
  | cons c v =>
    unfold readPrecision
    simp only [List.cons_append, Run.ok_bind, List.tail_cons, peek]
    refine agrees_ite (fun _ => ?_) fun _ => agrees_ok ⟨rfl, rfl, .refl (c :: v)⟩
    -- Behind the `.`, whose amount is `0` at the end of the format.
    cases v with
    | nil => exact agrees_ok ⟨rfl, rfl, (Rests.refl []).cons c⟩
    | cons d v =>
      simp only [List.cons_append, Run.ok_bind, List.tail_cons]
      refine agrees_ite (fun _ => ?_) fun _ => agrees_ite (fun _ => ?_) fun _ => ?_
      · refine (skipAtoiFrom_agrees (d :: v) 0).bind fun a b hab => ?_
        exact agrees_ok ⟨by rw [hab.1], rfl, hab.2.cons c⟩
      · exact (vaArg_agrees args).bind_same fun _ =>
          agrees_ok ⟨rfl, rfl, ((Rests.refl v).cons d).cons c⟩
      · exact agrees_ok ⟨rfl, rfl, (Rests.refl (d :: v)).cons c⟩

theorem readQualifier_agrees (v : List UInt8) :
    Agrees (fun a b => a.1 = b.1 ∧ Rests post post' v a.2 b.2)
      (readQualifier (v ++ 0 :: post)) (readQualifier (v ++ 0 :: post')) := by
  cases v with
  | nil => exact agrees_ok ⟨rfl, .refl []⟩
  | cons c v =>
    unfold readQualifier
    simp only [List.cons_append, peek, Run.ok_bind, List.tail_cons]
    split_ifs
    · exact agrees_ok ⟨rfl, (Rests.refl v).cons c⟩
    · exact agrees_ok ⟨rfl, .refl (c :: v)⟩

/-- The same result, but for the format that is left. -/
def SameText (post post' v : List UInt8) (a b : Converted) : Prop :=
  a.text = b.text ∧ a.stores = b.stores ∧ a.args = b.args ∧ Rests post post' v a.fmt b.fmt

theorem convertInteger_agrees (v : List UInt8) (flags : PrintFlags) (base : ℕ)
    (width precision : ℤ) (qualifier : Option UInt8) (args : List ℕ) {fmt fmt' : List UInt8}
    (h : Rests post post' v fmt fmt') :
    Agrees (SameText post post' v) (convertInteger flags base width precision qualifier args fmt)
      (convertInteger flags base width precision qualifier args fmt') :=
  (vaArg_agrees args).bind_same fun _ =>
    (writeNumber_agrees _ _ _ _ _).bind_same fun _ => agrees_ok ⟨rfl, rfl, rfl, h⟩

theorem convert_agrees (mem : List UInt8) (pos : ℕ) (v : List UInt8) (flags : PrintFlags)
    (width precision : ℤ) (qualifier : Option UInt8) (args : List ℕ) :
    Agrees (SameText post post' v)
      (convert mem pos flags width precision qualifier args (v ++ 0 :: post))
      (convert mem pos flags width precision qualifier args (v ++ 0 :: post')) := by
  cases v with
  | nil => exact agrees_ok ⟨rfl, rfl, rfl, .refl []⟩
  | cons c v =>
    have htail : Rests post post' (c :: v) (v ++ 0 :: post) (v ++ 0 :: post') :=
      (Rests.refl v).cons c
    unfold convert
    simp only [List.cons_append, peek, Run.ok_bind, List.tail_cons]
    refine agrees_ite (fun _ => ?char) fun _ => agrees_ite (fun _ => ?string) fun _ =>
      agrees_ite (fun _ => ?pointer) fun _ => agrees_ite (fun _ => ?count) fun _ =>
      agrees_ite (fun _ => ?percent) fun _ => ?rest
    case char => exact (vaArg_agrees args).bind_same fun _ => agrees_ok ⟨rfl, rfl, rfl, htail⟩
    case string =>
      exact (vaArg_agrees args).bind_same fun _ => (strnlen_agrees _ _ _).bind_same fun _ =>
        agrees_ok ⟨rfl, rfl, rfl, htail⟩
    case pointer =>
      exact (vaArg_agrees args).bind_same fun _ => agrees_ite
        (fun _ => (writeNumber_agrees _ _ _ _ _).bind_same fun _ => agrees_ok ⟨rfl, rfl, rfl, htail⟩)
        fun _ => (writeNumber_agrees _ _ _ _ _).bind_same fun _ => agrees_ok ⟨rfl, rfl, rfl, htail⟩
    case count => exact (vaArg_agrees args).bind_same fun _ => agrees_ok ⟨rfl, rfl, rfl, htail⟩
    case percent => exact agrees_ok ⟨rfl, rfl, rfl, htail⟩
    case rest =>
      refine agrees_ite (fun _ => convertInteger_agrees _ _ _ _ _ _ _ htail) fun _ =>
        agrees_ite (fun _ => convertInteger_agrees _ _ _ _ _ _ _ htail) fun _ =>
        agrees_ite (fun _ => convertInteger_agrees _ _ _ _ _ _ _ htail) fun _ =>
        agrees_ite (fun _ => convertInteger_agrees _ _ _ _ _ _ _ htail) fun _ =>
        agrees_ite (fun _ => convertInteger_agrees _ _ _ _ _ _ _ htail) fun _ =>
        agrees_ite (fun _ => ?_) fun _ => agrees_ok ⟨rfl, rfl, rfl, htail⟩
      exact agrees_ok ⟨rfl, rfl, rfl, .refl (c :: v)⟩

theorem directive_agrees (mem : List UInt8) (pos : ℕ) (v : List UInt8) (args : List ℕ) :
    Agrees (SameText post post' v) (directive mem pos (v ++ 0 :: post) args)
      (directive mem pos (v ++ 0 :: post') args) := by
  unfold directive
  refine (readFlags_agrees v noFlags).bind ?_
  rintro ⟨flags, _⟩ ⟨_, _⟩ ⟨rfl, u, hu, rfl, rfl⟩
  refine (readWidth_agrees u flags args).bind ?_
  rintro ⟨flags, width, _, args⟩ ⟨_, _, _, _⟩ ⟨rfl, rfl, rfl, t, ht, rfl, rfl⟩
  refine (readPrecision_agrees t args).bind ?_
  rintro ⟨precision, _, args⟩ ⟨_, _, _⟩ ⟨rfl, rfl, s, hs, rfl, rfl⟩
  refine (readQualifier_agrees s).bind ?_
  rintro ⟨qualifier, _⟩ ⟨_, _⟩ ⟨rfl, r, hr, rfl, rfl⟩
  exact (convert_agrees mem pos r flags width precision qualifier args).imp fun a b hab =>
    ⟨hab.1, hab.2.1, hab.2.2.1, hab.2.2.2.trans (((hr.trans hs).trans ht).trans hu)⟩

/-- The loop ends at the NUL: it needs no more rounds than there are characters. -/
theorem vsprintfLoop_agrees (mem : List UInt8) (room : ℕ) {n : ℕ} (v : List UInt8)
    (hv : v.length ≤ n) {rounds rounds' : ℕ} (hrounds : n < rounds) (hrounds' : n < rounds')
    (args : List ℕ) (p : Printed) :
    Agrees Eq (vsprintfLoop mem room rounds (v ++ 0 :: post) args p)
      (vsprintfLoop mem room rounds' (v ++ 0 :: post') args p) := by
  obtain ⟨r, rfl⟩ : ∃ r, rounds = r + 1 := ⟨rounds - 1, by omega⟩
  obtain ⟨r', rfl⟩ : ∃ r', rounds' = r' + 1 := ⟨rounds' - 1, by omega⟩
  induction n generalizing v r r' args p with
  | zero =>
    obtain rfl : v = [] := List.length_eq_zero_iff.mp (by omega)
    exact (emit_agrees room p.out [0]).bind_same fun _ => agrees_ok rfl
  | succ n ih =>
    cases v with
    | nil => exact (emit_agrees room p.out [0]).bind_same fun _ => agrees_ok rfl
    | cons c v =>
      rw [List.length_cons] at hv
      obtain ⟨q, rfl⟩ : ∃ q, r = q + 1 := ⟨r - 1, by omega⟩
      obtain ⟨q', rfl⟩ : ∃ q', r' = q' + 1 := ⟨r' - 1, by omega⟩
      rw [List.cons_append, List.cons_append, vsprintfLoop, vsprintfLoop]
      simp only [peek, Run.ok_bind, List.tail_cons]
      refine agrees_ite (fun _ => ?_) fun _ => agrees_ite (fun _ => ?_) fun _ => ?_
      · exact (emit_agrees room p.out [0]).bind_same fun _ => agrees_ok rfl
      · refine (directive_agrees mem p.out.length v args).bind ?_
        rintro ⟨text, stores, args, _⟩ ⟨_, _, _, _⟩ ⟨rfl, rfl, rfl, u, hu, rfl, rfl⟩
        have := hu.length_le
        exact (emit_agrees room p.out text).bind_same fun out =>
          ih u (by omega) args _ q (by omega) q' (by omega)
      · exact (emit_agrees room p.out [c]).bind_same fun out =>
          ih v (by omega) args _ q (by omega) q' (by omega)

end Formats

/-- **Nothing behind the NUL of a format is read**, whatever the format is, and the code comes to
an end: it returns, or it leaves an array, which the model does not name: the buffer, a string or
the arguments. A `%n` whose address lies in the format is left out, and so is what C leaves
undefined, the arithmetic of a width below the least `int`. -/
theorem vsprintf_ends (mem : List UInt8) (room : ℕ) (v : List UInt8) (args : List ℕ)
    (post post' : List UInt8) :
    vsprintf mem room (v ++ 0 :: post) args = vsprintf mem room (v ++ 0 :: post') args ∧
      ∀ e, vsprintf mem room (v ++ 0 :: post) args = .error e → e = .outOfBounds := by
  have hrounds : ∀ rest : List UInt8, v.length < (v ++ 0 :: rest).length + 1 := by
    intro rest
    rw [List.length_append]
    omega
  have hagrees : Agrees Eq (vsprintf mem room (v ++ 0 :: post) args)
      (vsprintf mem room (v ++ 0 :: post') args) :=
    vsprintfLoop_agrees mem room v le_rfl (hrounds post) (hrounds post') args ⟨[], []⟩
  exact ⟨hagrees.eq, fun e he => hagrees.eq_outOfBounds he⟩

end Ahos
