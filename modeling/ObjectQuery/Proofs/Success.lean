import Mathlib.Data.List.Forall2
import ObjectQuery.Traced

/-!
# When a computation succeeds

Lowering, expansion and evaluation are all chains of steps, each of which
may fail. A theorem about them speaks of the runs that succeed, so it has to
take a successful chain apart into its successful steps and put it together
again. The lemmas here do that for the two monads in use.

Of a traced computation two things can be asked: whether its outcome is a
certain result, and, more strongly, whether it reaches that result without
a single event. The second is the same as being `pure`.

Which of several errors ends a run does not matter to most statements.
`Except.toOption` forgets it and commutes with chaining; what is left is a
value or nothing, and there the order of independent steps is immaterial.

## Main definitions

* `Preserved` — one partial value kept by another, exactly or only where
  there was one.
* `Keeps` — the same for the results of computations that may fail.
-/

namespace ObjectQuery

/-! ## Chains that may fail -/

section

variable {ε α β : Type}

@[simp] theorem ok_bind (a : α) (f : α → Except ε β) : (Except.ok a >>= f) = f a := rfl

@[simp] theorem error_bind (e : ε) (f : α → Except ε β) :
    (Except.error e >>= f) = .error e := rfl

theorem bind_eq_ok {x : Except ε α} {f : α → Except ε β} {b : β} :
    (x >>= f) = .ok b ↔ ∃ a, x = .ok a ∧ f a = .ok b := by
  cases x with
  | error e => constructor <;> simp [bind, Except.bind]
  | ok a => simp [bind, Except.bind]

theorem map_eq_ok {x : Except ε α} {f : α → β} {b : β} :
    (f <$> x) = .ok b ↔ ∃ a, x = .ok a ∧ f a = b := by
  cases x with
  | error e => simp [Functor.map, Except.map]
  | ok a => simp [Functor.map, Except.map]

theorem mapError_eq_ok_iff {ε' : Type} {x : Except ε α} {f : ε → ε'} {a : α} :
    x.mapError f = .ok a ↔ x = .ok a := by
  cases x <;> simp [Except.mapError]

@[simp] theorem toOption_ok (a : α) : (Except.ok a : Except ε α).toOption = some a := rfl

@[simp] theorem toOption_error (e : ε) : (Except.error e : Except ε α).toOption = none := rfl

@[simp] theorem toOption_pure (a : α) : (pure a : Except ε α).toOption = some a := rfl

@[simp] theorem toOption_bind (x : Except ε α) (f : α → Except ε β) :
    (x >>= f).toOption = x.toOption >>= fun a => (f a).toOption := by
  cases x <;> rfl

theorem toOption_eq_some {x : Except ε α} {a : α} : x.toOption = some a ↔ x = .ok a := by
  cases x <;> simp [Except.toOption]

theorem mapM_eq_ok_iff {γ : Type} {f : γ → Except ε α} {cs : List γ} {as : List α} :
    cs.mapM f = .ok as ↔ List.Forall₂ (fun c a => f c = .ok a) cs as := by
  induction cs generalizing as with
  | nil =>
      rw [List.mapM_nil, List.forall₂_nil_left_iff]
      show Except.ok [] = Except.ok as ↔ as = []
      rw [Except.ok.injEq, eq_comm]
  | cons c cs ih =>
      rw [List.mapM_cons, bind_eq_ok, List.forall₂_cons_left_iff]
      simp only [bind_eq_ok, ih]
      constructor
      · rintro ⟨a, ha, as, has, h⟩
        exact ⟨a, as, ha, has, (Except.ok.inj h).symm⟩
      · rintro ⟨a, as, ha, has, rfl⟩
        exact ⟨a, ha, as, has, rfl⟩

theorem toOption_mapM {γ : Type} (f : γ → Except ε α) (cs : List γ) :
    (cs.mapM f).toOption = cs.mapM fun c => (f c).toOption := by
  induction cs with
  | nil => rfl
  | cons c cs ih => simp only [List.mapM_cons, toOption_bind, toOption_pure, ih]; rfl

end

/-! ## Traced chains -/

namespace Traced

variable {ω ε α β : Type}

instance : LawfulMonad (Traced ω ε) :=
  .mk' (Traced ω ε)
    (by
      intro α x
      obtain ⟨events, outcome⟩ := x
      cases outcome <;> simp [Functor.map, andThen])
    (by
      intro α β a f
      show andThen _ _ = _
      simp [pure, andThen])
    (by
      intro α β γ x f g
      obtain ⟨events, outcome⟩ := x
      show andThen (andThen _ _) _ = andThen _ _
      cases outcome with
      | error e => rfl
      | ok a =>
          show andThen ⟨events ++ (f a).events, (f a).outcome⟩ g = _
          simp only [andThen]
          cases h : (f a).outcome with
          | error e => simp [bind, andThen, h]
          | ok b => simp [bind, andThen, h])

theorem outcome_bind_eq_ok {x : Traced ω ε α} {f : α → Traced ω ε β} {b : β} :
    (x >>= f).outcome = .ok b ↔ ∃ a, x.outcome = .ok a ∧ (f a).outcome = .ok b := by
  rw [outcome_bind, bind_eq_ok]

@[simp] theorem outcome_map (x : Traced ω ε α) (f : α → β) :
    (f <$> x).outcome = f <$> x.outcome := by
  rw [← bind_pure_comp, outcome_bind, ← bind_pure_comp]
  rfl

theorem outcome_map_eq_ok {x : Traced ω ε α} {f : α → β} {b : β} :
    (f <$> x).outcome = .ok b ↔ ∃ a, x.outcome = .ok a ∧ f a = b := by
  rw [outcome_map, map_eq_ok]

/-- A chain reaches a result without an event exactly if all its steps do. -/
theorem bind_eq_pure {x : Traced ω ε α} {f : α → Traced ω ε β} {b : β} :
    (x >>= f) = pure b ↔ ∃ a, x = pure a ∧ f a = pure b := by
  obtain ⟨events, outcome⟩ := x
  cases outcome with
  | error e => constructor <;> simp [bind, pure, andThen]
  | ok a =>
      show (⟨events ++ (f a).events, (f a).outcome⟩ : Traced ω ε β) = ⟨[], .ok b⟩ ↔ _
      constructor
      · intro h
        obtain ⟨hevents, houtcome⟩ := Traced.mk.inj h
        obtain ⟨rfl, hf⟩ := List.append_eq_nil_iff.mp hevents
        refine ⟨a, rfl, ?_⟩
        cases hfa : f a
        simp_all [pure]
      · rintro ⟨a', ha, hf⟩
        obtain ⟨rfl, hok⟩ := Traced.mk.inj ha
        obtain rfl := Except.ok.inj hok
        simp [hf, pure]

theorem pure_inj {a b : α} : (pure a : Traced ω ε α) = pure b ↔ a = b := by
  simp [pure]

theorem ofExcept_eq_pure {x : Except ε α} {a : α} :
    (ofExcept x : Traced ω ε α) = pure a ↔ x = .ok a := by
  simp [ofExcept, pure]

theorem outcome_eq_of_eq_pure {x : Traced ω ε α} {a : α} (h : x = pure a) :
    x.outcome = .ok a := by
  rw [h, outcome_pure]

theorem emit_bind_ne_pure {event : ω} {x : Traced ω ε α} {a : α} :
    (emit event >>= fun _ => x) ≠ pure a := by
  intro h
  obtain ⟨u, hu, -⟩ := bind_eq_pure.mp h
  simp [emit, pure] at hu

/-! ### Both kinds of success at once -/

/-- A notion of success for traced computations. Which results a computation
reaches is determined by its steps. -/
structure Success (ω ε : Type) where
  Reaches : ∀ {α : Type}, Traced ω ε α → α → Prop
  ofExcept_iff : ∀ {α : Type} {x : Except ε α} {a : α},
    Reaches (ofExcept x) a ↔ x = .ok a
  bind_iff : ∀ {α β : Type} {x : Traced ω ε α} {f : α → Traced ω ε β} {b : β},
    Reaches (x >>= f) b ↔ ∃ a, Reaches x a ∧ Reaches (f a) b

namespace Success

/-- Success with any events. -/
def anyhow : Success ω ε where
  Reaches x a := x.outcome = .ok a
  ofExcept_iff := by simp
  bind_iff := outcome_bind_eq_ok

/-- Success without an event. -/
def quietly : Success ω ε where
  Reaches x a := x = pure a
  ofExcept_iff := ofExcept_eq_pure
  bind_iff := bind_eq_pure

variable (s : Success ω ε)

theorem pure_iff {a b : α} : s.Reaches (pure a) b ↔ a = b := by
  have h : (pure a : Traced ω ε α) = ofExcept (.ok a) := rfl
  rw [h, s.ofExcept_iff, Except.ok.injEq]

theorem mapM_iff {γ : Type} {f : γ → Traced ω ε α} {cs : List γ} {as : List α} :
    s.Reaches (cs.mapM f) as ↔ List.Forall₂ (fun c a => s.Reaches (f c) a) cs as := by
  induction cs generalizing as with
  | nil =>
      rw [List.mapM_nil, s.pure_iff, List.forall₂_nil_left_iff, eq_comm]
  | cons c cs ih =>
      rw [List.mapM_cons, s.bind_iff, List.forall₂_cons_left_iff]
      simp only [s.bind_iff, s.pure_iff, ih]
      constructor
      · rintro ⟨a, ha, as, has, rfl⟩
        exact ⟨a, as, ha, has, rfl⟩
      · rintro ⟨a, as, ha, has, rfl⟩
        exact ⟨a, ha, as, has, rfl⟩

end Success

end Traced

/-! ## Lists related element by element -/

theorem exists_right_of_forall₂ {α β : Type} {R : α → β → Prop} {as : List α} {bs : List β}
    (h : List.Forall₂ R as bs) {a : α} (ha : a ∈ as) : ∃ b ∈ bs, R a b := by
  induction h with
  | nil => cases ha
  | cons hab hrest ih =>
      rcases List.mem_cons.mp ha with rfl | ha
      · exact ⟨_, List.mem_cons_self, hab⟩
      · obtain ⟨b, hb, hrelated⟩ := ih ha
        exact ⟨b, List.mem_cons_of_mem _ hb, hrelated⟩

theorem exists_left_of_forall₂ {α β : Type} {R : α → β → Prop} {as : List α} {bs : List β}
    (h : List.Forall₂ R as bs) {b : β} (hb : b ∈ bs) : ∃ a ∈ as, R a b :=
  exists_right_of_forall₂ h.flip hb

theorem forall₂_mono {α β : Type} {R S : α → β → Prop} {as : List α} {bs : List β}
    (h : List.Forall₂ R as bs) (hRS : ∀ a ∈ as, ∀ b, R a b → S a b) :
    List.Forall₂ S as bs := by
  induction h with
  | nil => exact .nil
  | cons hab hrest ih =>
      exact .cons (hRS _ List.mem_cons_self _ hab) (ih fun a ha => hRS a (List.mem_cons_of_mem _ ha))

theorem forall₂_symm {α : Type} {R : α → α → Prop} {as bs : List α} (h : List.Forall₂ R as bs)
    (hR : ∀ a ∈ as, ∀ b ∈ bs, R a b → R b a) : List.Forall₂ R bs as := by
  induction h with
  | nil => exact .nil
  | cons hab _ ih =>
      refine .cons (hR _ List.mem_cons_self _ List.mem_cons_self hab) (ih fun a ha b hb => ?_)
      exact hR a (List.mem_cons_of_mem _ ha) b (List.mem_cons_of_mem _ hb)

theorem forall₂_trans {α : Type} {R : α → α → Prop} {as bs cs : List α}
    (hab : List.Forall₂ R as bs) (hbc : List.Forall₂ R bs cs)
    (hR : ∀ a ∈ as, ∀ b c, R a b → R b c → R a c) : List.Forall₂ R as cs := by
  induction hab generalizing cs with
  | nil => exact hbc
  | cons hab _ ih =>
      cases hbc with
      | cons hbc hrest =>
          refine .cons (hR _ List.mem_cons_self _ _ hab hbc) (ih hrest fun a ha => ?_)
          exact hR a (List.mem_cons_of_mem _ ha)

theorem exists_forall₂ {α β : Type} {R : α → β → Prop} {as : List α}
    (h : ∀ a ∈ as, ∃ b, R a b) : ∃ bs, List.Forall₂ R as bs := by
  induction as with
  | nil => exact ⟨[], .nil⟩
  | cons a as ih =>
      obtain ⟨b, hb⟩ := h a List.mem_cons_self
      obtain ⟨bs, hbs⟩ := ih fun a ha => h a (List.mem_cons_of_mem _ ha)
      exact ⟨b :: bs, .cons hb hbs⟩

/-- Where each step from one list to another can be followed, so can the whole
list. -/
theorem forall₂_follow {α α' β β' : Type} {R : α → α' → Prop} {S : α → β → Prop}
    {U : α' → β' → Prop} {T : β → β' → Prop} {as : List α} {as' : List α'} {bs : List β}
    (h : List.Forall₂ R as as') (hS : List.Forall₂ S as bs)
    (step : ∀ a ∈ as, ∀ a' b, R a a' → S a b → ∃ b', U a' b' ∧ T b b') :
    ∃ bs', List.Forall₂ U as' bs' ∧ List.Forall₂ T bs bs' := by
  induction h generalizing bs with
  | nil =>
      cases hS
      exact ⟨[], .nil, .nil⟩
  | cons hhead _ ih =>
      cases hS with
      | cons hSHead hSRest =>
          obtain ⟨b', hb', hT⟩ := step _ List.mem_cons_self _ _ hhead hSHead
          obtain ⟨bs', hbs', hTs⟩ := ih hSRest fun a ha => step a (List.mem_cons_of_mem _ ha)
          exact ⟨b' :: bs', .cons hb' hbs', .cons hT hTs⟩

/-- What is made of the entries of a list follows along when the entries and what was
made of them are changed by two functions. -/
theorem forall₂_follow_map {α α' β β' β'' : Type} (f : α → α') (g : β → β') {S : α → β → Prop}
    {U : α' → β'' → Prop} {T : β' → β'' → Prop} {as : List α} {bs : List β}
    (hS : List.Forall₂ S as bs)
    (step : ∀ a ∈ as, ∀ b, S a b → ∃ b', U (f a) b' ∧ T (g b) b') :
    ∃ bs', List.Forall₂ U (as.map f) bs' ∧ List.Forall₂ T (bs.map g) bs' := by
  have hmap : List.Forall₂ (fun a a' => a' = f a) as (as.map f) := by
    rw [List.forall₂_map_right_iff, List.forall₂_same]
    exact fun _ _ => rfl
  obtain ⟨bs', hbs', hfollow⟩ := forall₂_follow (T := fun b b' => T (g b) b') hmap hS
    fun a ha a' b hf hb => hf ▸ step a ha b hb
  exact ⟨bs', hbs', List.forall₂_map_left_iff.mpr hfollow⟩

theorem rel_follow {α α' β β' : Type} {R : α → α' → Prop} {S : α → β → Prop}
    {U : α' → β' → Prop} {T : β → β' → Prop} {o : Option α} {o' : Option α'} {p : Option β}
    (h : Option.Rel R o o') (hS : Option.Rel S o p)
    (step : ∀ a a' b, R a a' → S a b → ∃ b', U a' b' ∧ T b b') :
    ∃ p', Option.Rel U o' p' ∧ Option.Rel T p p' := by
  cases h with
  | none =>
      cases hS
      exact ⟨none, .none, .none⟩
  | some h =>
      cases hS with
      | some hS =>
          obtain ⟨b', hb', hT⟩ := step _ _ _ h hS
          exact ⟨some b', .some hb', .some hT⟩

/-- What is made of one partial value by two functions is related where they make
related values. -/
theorem rel_bind {α β β' : Type} {R : β → β' → Prop} {x y : Option α} {f : α → Option β}
    {g : α → Option β'} (hxy : y = x) (h : ∀ a, Option.Rel R (f a) (g a)) :
    Option.Rel R (x >>= f) (y >>= g) := by
  rw [hxy]
  cases x with
  | none => exact .none
  | some a => exact h a

/-- Related partial values are not told apart by functions that make the same of
related values. -/
theorem bind_eq_of_rel {α α' β : Type} {R : α → α' → Prop} {x : Option α} {y : Option α'}
    {f : α → Option β} {g : α' → Option β} (h : Option.Rel R x y)
    (hfg : ∀ a b, R a b → f a = g b) : (x >>= f) = (y >>= g) := by
  cases h with
  | none => rfl
  | some hab => exact hfg _ _ hab

theorem rel_mapM {α β β' : Type} {R : β → β' → Prop} {f : α → Option β} {g : α → Option β'}
    {as : List α} (h : ∀ a ∈ as, Option.Rel R (f a) (g a)) :
    Option.Rel (List.Forall₂ R) (as.mapM f) (as.mapM g) := by
  induction as with
  | nil => exact .some .nil
  | cons a rest ih =>
      have hhead := h a List.mem_cons_self
      have hrest := ih fun b hb => h b (List.mem_cons_of_mem _ hb)
      rw [List.mapM_cons, List.mapM_cons]
      revert hhead hrest
      generalize f a = x, g a = y, rest.mapM f = xs, rest.mapM g = ys
      intro hhead hrest
      cases hhead with
      | none => exact .none
      | some hhead =>
          cases hrest with
          | none => exact .none
          | some hrest => exact .some (.cons hhead hrest)

theorem length_of_mapM {α β : Type} {f : α → Option β} {as : List α} {bs : List β}
    (h : as.mapM f = some bs) : bs.length = as.length := by
  induction as generalizing bs with
  | nil =>
      obtain rfl := Option.some.inj h
      rfl
  | cons a rest ih =>
      rw [List.mapM_cons] at h
      obtain ⟨b, -, h⟩ := Option.bind_eq_some_iff.mp h
      obtain ⟨bs, hrest, h⟩ := Option.bind_eq_some_iff.mp h
      obtain rfl := Option.some.inj h
      rw [List.length_cons, List.length_cons, ih hrest]

theorem exists_of_mem_mapM {α β : Type} {f : α → Option β} {as : List α} {bs : List β}
    (h : as.mapM f = some bs) {b : β} (hb : b ∈ bs) : ∃ a ∈ as, f a = some b := by
  induction as generalizing bs with
  | nil =>
      obtain rfl := Option.some.inj h
      cases hb
  | cons a rest ih =>
      rw [List.mapM_cons] at h
      obtain ⟨first, hfirst, h⟩ := Option.bind_eq_some_iff.mp h
      obtain ⟨others, hothers, h⟩ := Option.bind_eq_some_iff.mp h
      obtain rfl := Option.some.inj h
      rcases List.mem_cons.mp hb with rfl | hb
      · exact ⟨a, List.mem_cons_self, hfirst⟩
      · obtain ⟨found, hfound, hvalue⟩ := ih hothers hb
        exact ⟨found, List.mem_cons_of_mem a hfound, hvalue⟩

/-! ## Partial values that are kept -/

/-- The partial value `y` keeps the partial value `x`: it is the same, or,
where `lax` allows it, there was none. -/
def Preserved {α : Type} (lax : Bool) (x y : Option α) : Prop :=
  x = y ∨ (lax = true ∧ x = none)

namespace Preserved

variable {α β γ : Type} {lax : Bool} {x y z : Option α}

theorem refl (x : Option α) : Preserved lax x x := .inl rfl

theorem of_eq (h : x = y) : Preserved lax x y := .inl h

theorem trans (hxy : Preserved lax x y) (hyz : Preserved lax y z) : Preserved lax x z := by
  obtain rfl | hx := hxy
  · exact hyz
  · exact .inr hx

/-- Keeping exactly is equality. -/
theorem exact_iff : Preserved false x y ↔ x = y := by
  simp [Preserved]

/-- Keeping laxly carries a value over where there is one. -/
theorem lax_iff : Preserved true x y ↔ ∀ a, x = some a → y = some a := by
  constructor
  · rintro (rfl | ⟨-, rfl⟩) a ha
    · exact ha
    · cases ha
  · intro h
    cases x with
    | none => exact .inr ⟨rfl, rfl⟩
    | some a => exact .inl (h a rfl).symm

theorem bind {f g : α → Option β} (hxy : Preserved lax x y)
    (hfg : ∀ a, Preserved lax (f a) (g a)) : Preserved lax (x >>= f) (y >>= g) := by
  obtain rfl | ⟨hlax, rfl⟩ := hxy
  · cases x with
    | none => exact .refl none
    | some a => exact hfg a
  · exact .inr ⟨hlax, rfl⟩

theorem bind_right (hxy : Preserved lax x y) (f : α → Option β) :
    Preserved lax (x >>= f) (y >>= f) :=
  hxy.bind fun a => .refl (f a)

theorem map (hxy : Preserved lax x y) (f : α → β) : Preserved lax (x.map f) (y.map f) := by
  obtain rfl | ⟨hlax, rfl⟩ := hxy
  · exact .refl _
  · exact .inr ⟨hlax, rfl⟩

theorem mapM {f g : γ → Option β} (hfg : ∀ c, Preserved lax (f c) (g c)) (cs : List γ) :
    Preserved lax (cs.mapM f) (cs.mapM g) := by
  induction cs with
  | nil => exact .refl _
  | cons c cs ih =>
      simp only [List.mapM_cons]
      exact (hfg c).bind fun b => ih.bind_right _

theorem mapM₂ {β' : Type} {f : β → Option γ} {g : β' → Option γ} {bs : List β} {bs' : List β'}
    (h : List.Forall₂ (fun b b' => Preserved lax (f b) (g b')) bs bs') :
    Preserved lax (bs.mapM f) (bs'.mapM g) := by
  induction h with
  | nil => exact .refl _
  | cons hhead _ ih =>
      simp only [List.mapM_cons]
      exact hhead.bind fun c => ih.bind_right _

end Preserved

/-- The second computation keeps the result of the first one. -/
def Keeps {ε α : Type} (lax : Bool) (x y : Except ε α) : Prop :=
  Preserved lax x.toOption y.toOption

namespace Keeps

variable {ε α β γ : Type} {lax : Bool} {x y z : Except ε α}

theorem refl (x : Except ε α) : Keeps lax x x := Preserved.refl _

theorem trans (hxy : Keeps lax x y) (hyz : Keeps lax y z) : Keeps lax x z :=
  Preserved.trans hxy hyz

theorem bind {f g : α → Except ε β} (hxy : Keeps lax x y)
    (hfg : ∀ a, Keeps lax (f a) (g a)) : Keeps lax (x >>= f) (y >>= g) := by
  unfold Keeps
  rw [toOption_bind, toOption_bind]
  exact Preserved.bind hxy hfg

theorem bind_right (hxy : Keeps lax x y) (f : α → Except ε β) :
    Keeps lax (x >>= f) (y >>= f) :=
  hxy.bind fun a => refl (f a)

theorem mapM {f g : γ → Except ε α} (hfg : ∀ c, Keeps lax (f c) (g c)) (cs : List γ) :
    Keeps lax (cs.mapM f) (cs.mapM g) := by
  unfold Keeps
  rw [toOption_mapM, toOption_mapM]
  exact Preserved.mapM hfg cs

/-- What is kept exactly is the same wherever there is a result. -/
theorem exact_iff : Keeps false x y ↔ ∀ a, x = .ok a ↔ y = .ok a := by
  unfold Keeps
  rw [Preserved.exact_iff]
  simp only [← toOption_eq_some]
  constructor
  · intro h a
    rw [h]
  · intro h
    exact Option.ext h

/-- What is kept laxly is there wherever it was. -/
theorem lax_iff : Keeps true x y ↔ ∀ a, x = .ok a → y = .ok a := by
  unfold Keeps
  rw [Preserved.lax_iff]
  simp only [toOption_eq_some]

end Keeps

end ObjectQuery
