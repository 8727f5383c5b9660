import Mathlib.Data.List.Forall2

/-! # Walks over lists that can fail

The walkers of nodes, files and manifests go over lists with functions into `Except`. Here is what
they have in common: what a step that succeeded or failed was made of (`bind_eq_ok_iff`,
`bind_eq_error_iff`), which results a whole list has (`mapM_eq_ok_iff`), and when two walks over lists
that are related item by item have equal results (`mapM_eq_of_forall₂`), or results with equal views
(`map_mapM_congr`). -/

namespace ListPress
open List

/-! ## Lists related item by item -/

section
variable {R : α → β → Prop} {S : α → γ → Prop} {T : β → γ → Prop}

theorem forall₂_of_common (H : ∀ a b c, R a b → S a c → T b c) (hR : Forall₂ R as bs)
    (hS : Forall₂ S as cs) : Forall₂ T bs cs := by
  induction hR generalizing cs with
  | nil =>
    cases hS
    exact .nil
  | cons hab _ ih =>
    cases hS with
    | cons hac hS => exact .cons (H _ _ _ hab hac) (ih hS)

theorem exists_forall₂ (hR : Forall₂ R as bs) (H : ∀ a ∈ as, ∀ b, R a b → ∃ c, T b c ∧ S a c) :
    ∃ cs, Forall₂ T bs cs ∧ Forall₂ S as cs := by
  induction hR with
  | nil => exact ⟨[], .nil, .nil⟩
  | cons hab _ ih =>
    rw [forall_mem_cons] at H
    obtain ⟨c, hT, hS⟩ := H.1 _ hab
    obtain ⟨cs, hTs, hSs⟩ := ih H.2
    exact ⟨c :: cs, .cons hT hTs, .cons hS hSs⟩

theorem exists_mem_of_forall₂ (H : Forall₂ R as bs) (ha : a ∈ as) : ∃ b ∈ bs, R a b := by
  induction H with
  | nil => cases ha
  | @cons _ b _ bs hab _ ih =>
    rcases mem_cons.1 ha with rfl | ha
    · exact ⟨b, mem_cons_self, hab⟩
    · obtain ⟨c, hc, hac⟩ := ih ha
      exact ⟨c, mem_cons_of_mem b hc, hac⟩

theorem map_eq_of_forall₂ {f : α → γ} {g : β → γ} (H : Forall₂ R as bs)
    (hf : ∀ a, ∀ b ∈ bs, R a b → f a = g b) : as.map f = bs.map g := by
  induction H with
  | nil => rfl
  | @cons a b _ _ hab _ ih =>
    rw [map_cons, map_cons, hf a b mem_cons_self hab,
      ih fun a b hb => hf a b (mem_cons_of_mem _ hb)]

end

/-! ## Steps that succeed, and steps that fail -/

section
variable {x : Except ε α}

theorem bind_eq_ok_iff {f : α → Except ε β} :
    x >>= f = .ok b ↔ ∃ a, x = .ok a ∧ f a = .ok b := by
  cases x <;> simp [bind, Except.bind]

theorem map_eq_ok_iff {f : α → β} : f <$> x = .ok b ↔ ∃ a, x = .ok a ∧ f a = b := by
  cases x <;> simp

theorem mapError_eq_ok_iff {f : ε → ε'} : x.mapError f = .ok a ↔ x = .ok a := by
  cases x <;> simp [Except.mapError]

theorem error_bind (e : ε) (f : α → Except ε β) : Except.error e >>= f = .error e := rfl

theorem exists_eq_ok (H : ∀ e, x ≠ .error e) : ∃ a, x = .ok a := by
  cases x with
  | ok a => exact ⟨a, rfl⟩
  | error e => exact absurd rfl (H e)

theorem bind_eq_error_iff {f : α → Except ε β} :
    x >>= f = .error e ↔ x = .error e ∨ ∃ a, x = .ok a ∧ f a = .error e := by
  cases x <;> simp [bind, Except.bind]

theorem map_eq_error_iff {f : α → β} : f <$> x = .error e ↔ x = .error e := by
  cases x <;> simp

theorem mapError_eq_error_iff {f : ε → ε'} :
    x.mapError f = .error e' ↔ ∃ e, x = .error e ∧ f e = e' := by
  cases x <;> simp [Except.mapError]

end

/-! ## Whole lists -/

section
variable {f : α → Except ε β} {xs : List α}

theorem mapM_eq_ok_iff {ys : List β} :
    xs.mapM f = .ok ys ↔ Forall₂ (fun x y => f x = .ok y) xs ys := by
  induction xs generalizing ys with
  | nil => cases ys <;> simp [pure, Except.pure]
  | cons x xs ih =>
    rw [mapM_cons, bind_eq_ok_iff, forall₂_cons_left_iff]
    constructor
    · rintro ⟨y, hy, h⟩
      obtain ⟨rest, hrest, h⟩ := bind_eq_ok_iff.1 h
      cases h
      exact ⟨y, rest, hy, ih.1 hrest, rfl⟩
    · rintro ⟨y, rest, hy, hrest, rfl⟩
      exact ⟨y, hy, bind_eq_ok_iff.2 ⟨rest, ih.2 hrest, rfl⟩⟩

theorem mapM_isOk_iff : (∃ ys, xs.mapM f = .ok ys) ↔ ∀ x ∈ xs, ∃ y, f x = .ok y := by
  simp only [mapM_eq_ok_iff]
  induction xs with
  | nil => simp
  | cons x xs ih =>
    rw [forall_mem_cons, ← ih]
    constructor
    · rintro ⟨_, _ | ⟨hy, hys⟩⟩
      exact ⟨⟨_, hy⟩, _, hys⟩
    · rintro ⟨⟨y, hy⟩, ys, hys⟩
      exact ⟨y :: ys, .cons hy hys⟩

theorem exists_of_mapM_eq_error (H : xs.mapM f = .error e) : ∃ x ∈ xs, f x = .error e := by
  induction xs with
  | nil => cases H
  | cons x xs ih =>
    rw [mapM_cons] at H
    obtain hx | ⟨_, _, H⟩ := bind_eq_error_iff.1 H
    · exact ⟨x, mem_cons_self, hx⟩
    obtain hxs | ⟨_, _, H⟩ := bind_eq_error_iff.1 H
    · obtain ⟨y, hy, hfail⟩ := ih hxs
      exact ⟨y, mem_cons_of_mem x hy, hfail⟩
    · cases H

end

theorem mapM_eq_of_forall₂ {f : α → Except ε γ} {g : β → Except ε γ} {R : α → β → Prop}
    (H : Forall₂ R xs ys) (hf : ∀ x y, R x y → f x = g y) : xs.mapM f = ys.mapM g := by
  induction H with
  | nil => rfl
  | cons h _ ih => rw [mapM_cons, mapM_cons, hf _ _ h, ih]

/-! ## Results with equal views -/

section
variable {x y : Except ε α}

/-- Results whose views are equal are the same error, or values with equal views. -/
theorem map_eq_map_cases {p : α → γ} (H : p <$> x = p <$> y) :
    (∃ e, x = .error e ∧ y = .error e) ∨ ∃ a b, x = .ok a ∧ y = .ok b ∧ p a = p b := by
  cases x with
  | error e =>
    cases y with
    | error =>
      cases H
      exact .inl ⟨e, rfl, rfl⟩
    | ok => cases H
  | ok a =>
    cases y with
    | error => cases H
    | ok b => exact .inr ⟨a, b, rfl, rfl, Except.ok.inj H⟩

theorem map_bind_congr {f g : α → Except ε β} {p : α → γ} {q : β → δ}
    (hxy : p <$> x = p <$> y) (H : ∀ a b, p a = p b → q <$> f a = q <$> g b) :
    q <$> (x >>= f) = q <$> (y >>= g) := by
  obtain ⟨e, rfl, rfl⟩ | ⟨a, b, rfl, rfl, hab⟩ := map_eq_map_cases hxy
  · rfl
  · exact H a b hab

theorem map_map_congr {f : α → β} {p : α → γ} {q : β → δ}
    (hxy : p <$> x = p <$> y) (H : ∀ a b, p a = p b → q (f a) = q (f b)) :
    q <$> f <$> x = q <$> f <$> y :=
  map_bind_congr hxy fun a b hab => congrArg Except.ok (H a b hab)

end

theorem map_mapM_congr {f : α → Except ε γ} {g : β → Except ε γ} {p : γ → δ} {R : α → β → Prop}
    (H : Forall₂ R xs ys) (hf : ∀ x y, R x y → p <$> f x = p <$> g y) :
    List.map p <$> xs.mapM f = List.map p <$> ys.mapM g := by
  induction H with
  | nil => rfl
  | cons hxy _ ih =>
    rw [mapM_cons, mapM_cons]
    refine map_bind_congr (hf _ _ hxy) fun a b hab => ?_
    refine map_bind_congr ih fun as bs habs => ?_
    exact congrArg Except.ok (by rw [map_cons, map_cons, hab, habs])

/-- Whether there is a result, and the error if there is none. -/
def outcome (x : Except ε α) : Except ε Unit := (fun _ => ()) <$> x

theorem outcome_bind (x : Except ε α) {f g : α → Except ε β}
    (H : ∀ a, outcome (f a) = outcome (g a)) : outcome (x >>= f) = outcome (x >>= g) := by
  cases x with
  | error => rfl
  | ok a => exact H a

theorem outcome_map {x y : Except ε α} (H : outcome x = outcome y) (f g : α → β) :
    outcome (f <$> x) = outcome (g <$> y) :=
  map_bind_congr H fun _ _ _ => rfl

theorem outcome_mapM (xs : List α) {f g : α → Except ε β}
    (H : ∀ x, outcome (f x) = outcome (g x)) : outcome (xs.mapM f) = outcome (xs.mapM g) := by
  induction xs with
  | nil => rfl
  | cons x xs ih =>
    rw [mapM_cons, mapM_cons]
    exact map_bind_congr (H x) fun _ _ _ => map_bind_congr ih fun _ _ _ => rfl

end ListPress
