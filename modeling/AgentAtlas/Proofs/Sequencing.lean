import Mathlib.Data.List.Forall2

/-!
# Steps one after the other

Steps which may fail succeed together exactly if each of them does. A walk along a list puts
together what its steps do (`foldlM_flatMap`), and checks along a list fail as the first one does
which fails (`forM_cases`).
-/

set_option autoImplicit false

namespace AgentAtlas

variable {ε α β γ : Type}

/-- A result of which something is known is a success. -/
theorem exists_eq_ok {x : Except ε α} {f : α → β} {b : β} (h : x.toOption.map f = some b) :
    ∃ a, x = .ok a ∧ f a = b := by
  cases x with
  | error e => cases h
  | ok a => exact ⟨a, rfl, Option.some.inj h⟩

theorem toOption_eq_some_iff {x : Except ε α} {a : α} : x.toOption = some a ↔ x = .ok a := by
  cases x <;> simp [Except.toOption]

/-- Two steps succeed exactly if one does after the other. -/
theorem bind_eq_ok_iff {x : Except ε α} {f : α → Except ε β} {b : β} :
    (x >>= f) = .ok b ↔ ∃ a, x = .ok a ∧ f a = .ok b := by
  cases x <;> simp [bind, Except.bind]

/-- A list maps to a list of successes exactly element by element. -/
theorem mapM_eq_ok_iff {f : α → Except ε β} {xs : List α} {ys : List β} :
    xs.mapM f = .ok ys ↔ List.Forall₂ (fun x y => f x = .ok y) xs ys := by
  induction xs generalizing ys with
  | nil =>
      rw [List.mapM_nil, List.forall₂_nil_left_iff]
      simp [pure, Except.pure, eq_comm]
  | cons x xs ih =>
      rw [List.mapM_cons, List.forall₂_cons_left_iff, bind_eq_ok_iff]
      constructor
      · rintro ⟨y, hy, h⟩
        obtain ⟨rest, hrest, hys⟩ := bind_eq_ok_iff.1 h
        cases hys
        exact ⟨y, rest, hy, ih.1 hrest, rfl⟩
      · rintro ⟨y, rest, hy, hrest, rfl⟩
        exact ⟨y, hy, bind_eq_ok_iff.2 ⟨rest, ih.2 hrest, rfl⟩⟩

/-- A list maps to a list of successes only if every element maps to one. -/
theorem exists_of_mapM_eq_ok {f : α → Except ε β} {xs : List α} {ys : List β}
    (h : xs.mapM f = .ok ys) : ∀ x ∈ xs, ∃ y, f x = .ok y := by
  induction mapM_eq_ok_iff.1 h with
  | nil => exact List.forall_mem_nil _
  | cons hxy hrest ih => exact List.forall_mem_cons.2 ⟨⟨_, hxy⟩, ih (mapM_eq_ok_iff.2 hrest)⟩

/-- Steps along a list which stands for another one all succeed, each as its counterpart says, or
fail as one of them does. -/
theorem mapM_cases {R : α → β → Prop} {S : α → γ → Prop} {E : α → ε → Prop} {f : β → Except ε γ}
    (hstep : ∀ x y, R x y → (∃ z, f y = .ok z ∧ S x z) ∨ ∃ e, f y = .error e ∧ E x e)
    {xs : List α} {ys : List β} (h : List.Forall₂ R xs ys) :
    (∃ zs, ys.mapM f = .ok zs ∧ List.Forall₂ S xs zs) ∨
      ∃ x ∈ xs, ∃ e, ys.mapM f = .error e ∧ E x e := by
  induction h with
  | nil => exact .inl ⟨[], rfl, .nil⟩
  | cons hxy _ ih =>
      rw [List.mapM_cons]
      rcases hstep _ _ hxy with ⟨z, hz, hS⟩ | ⟨e, he, hE⟩
      · rw [hz]
        rcases ih with ⟨zs, hzs, hall⟩ | ⟨x, hx, e, he, hE⟩
        · exact .inl ⟨z :: zs, by rw [hzs]; rfl, .cons hS hall⟩
        · exact .inr ⟨x, List.mem_cons_of_mem _ hx, e, by rw [he]; rfl, hE⟩
      · -- the first step fails, and no other is taken
        exact .inr ⟨_, List.mem_cons_self, e, by rw [he]; rfl, hE⟩

/-- Steps along a list all succeed or fail as one of them does. -/
theorem mapM_cases_self {S : α → γ → Prop} {E : α → ε → Prop} {f : α → Except ε γ}
    (hstep : ∀ x, (∃ z, f x = .ok z ∧ S x z) ∨ ∃ e, f x = .error e ∧ E x e) (xs : List α) :
    (∃ zs, xs.mapM f = .ok zs ∧ List.Forall₂ S xs zs) ∨
      ∃ x ∈ xs, ∃ e, xs.mapM f = .error e ∧ E x e := by
  refine mapM_cases (R := Eq) ?_ (List.forall₂_refl xs)
  rintro x _ rfl
  exact hstep x

/-- A list maps to a list of values exactly element by element. -/
theorem mapM_eq_some_iff {f : α → Option β} {xs : List α} {ys : List β} :
    xs.mapM f = some ys ↔ List.Forall₂ (fun x y => f x = some y) xs ys := by
  induction xs generalizing ys with
  | nil =>
      rw [List.mapM_nil, List.forall₂_nil_left_iff]
      simp [pure, eq_comm]
  | cons x xs ih =>
      rw [List.mapM_cons, List.forall₂_cons_left_iff, Option.bind_eq_bind,
        Option.bind_eq_some_iff]
      constructor
      · rintro ⟨y, hy, h⟩
        obtain ⟨rest, hrest, hys⟩ := Option.bind_eq_some_iff.1 h
        cases hys
        exact ⟨y, rest, hy, ih.1 hrest, rfl⟩
      · rintro ⟨y, rest, hy, hrest, rfl⟩
        exact ⟨y, hy, Option.bind_eq_some_iff.2 ⟨rest, ih.2 hrest, rfl⟩⟩

/-- A list in which every element has a value has the values of all. -/
theorem mapM_eq_some_map {f : α → Option β} {g : α → β} {xs : List α}
    (h : ∀ x ∈ xs, f x = some (g x)) : xs.mapM f = some (xs.map g) := by
  rw [mapM_eq_some_iff, List.forall₂_map_right_iff, List.forall₂_same]
  exact h

/-- Where each element stands for one thing, the list stands for these. -/
theorem eq_flatMap_of_forall₂ {R : α → β → Prop} {g : α → List β} (hg : ∀ x y, R x y → g x = [y])
    {xs : List α} {ys : List β} (h : List.Forall₂ R xs ys) : ys = xs.flatMap g := by
  induction h with
  | nil => rfl
  | cons hxy _ ih => rw [List.flatMap_cons, hg _ _ hxy, ← ih, List.singleton_append]

/-- Where each element has one possible success, so has the list. -/
theorem eq_map_of_forall₂ {R : α → β → Prop} {g : α → β} (hg : ∀ x y, R x y → y = g x)
    {xs : List α} {ys : List β} (h : List.Forall₂ R xs ys) : ys = xs.map g := by
  rw [List.map_eq_flatMap]
  exact eq_flatMap_of_forall₂ (fun x y hxy => by rw [hg x y hxy]) h

/-- A walk along a list does what its steps do one after the other. It starts with nothing done
(`hnil`), and what is done in two parts is done (`htrans`). -/
theorem foldlM_flatMap {P : List γ → β → β → Prop} {f : β → α → Except ε β} {g : α → List γ}
    (hnil : ∀ b, P [] b b)
    (htrans : ∀ {xs ys : List γ} {b c d : β}, P xs b c → P ys c d → P (xs ++ ys) b d)
    (hstep : ∀ {b c : β} {x : α}, f b x = .ok c → P (g x) b c) :
    ∀ {xs : List α} {b c : β}, xs.foldlM f b = .ok c → P (xs.flatMap g) b c := by
  intro xs
  induction xs with
  | nil =>
      intro b c h
      cases h
      exact hnil b
  | cons x xs ih =>
      intro b c h
      rw [List.foldlM_cons] at h
      obtain ⟨m, hm, h⟩ := bind_eq_ok_iff.1 h
      exact htrans (hstep hm) (ih h)

/-- A walk along a list makes a step at each element. -/
theorem exists_step_of_foldlM {f : β → α → Except ε β} {xs : List α} {b c : β}
    (h : xs.foldlM f b = .ok c) : ∀ x ∈ xs, ∃ b c, f b x = .ok c := by
  rw [← List.flatMap_singleton' xs]
  refine foldlM_flatMap (P := fun xs _ _ => ∀ x ∈ xs, ∃ b c, f b x = .ok c) (g := fun x => [x])
    (fun _ => List.forall_mem_nil _) (fun hxs hys => List.forall_mem_append.2 ⟨hxs, hys⟩) ?_ h
  exact fun hstep => List.forall_mem_singleton.2 ⟨_, _, hstep⟩

/-! ## The first failure -/

/-- The first element of a list which fails a test. The test may ask for the place. -/
structure FirstFailing (P : Nat → α → Prop) (xs : List α) (i : Nat) (x : α) : Prop where
  here : xs[i]? = some x
  fails : ¬P i x
  before (j : Nat) (y : α) : j < i → xs[j]? = some y → P j y

namespace FirstFailing

variable {P : Nat → α → Prop} {xs : List α} {i j : Nat} {x y : α}

/-- A list has one first failure. -/
theorem unique (h : FirstFailing P xs i x) (ho : FirstFailing P xs j y) : i = j ∧ x = y := by
  have hplace : i = j := by
    rcases Nat.lt_trichotomy i j with hlt | heq | hgt
    · exact absurd (ho.before i x hlt h.here) h.fails
    · exact heq
    · exact absurd (h.before j y hgt ho.here) ho.fails
  subst hplace
  exact ⟨rfl, Option.some.inj (h.here.symm.trans ho.here)⟩

theorem not_forall (h : FirstFailing P xs i x) : ¬∀ i x, xs[i]? = some x → P i x :=
  fun hall => h.fails (hall i x h.here)

theorem head (h : ¬P 0 x) : FirstFailing P (x :: xs) 0 x :=
  ⟨rfl, h, fun _ _ hlt => absurd hlt (Nat.not_lt_zero _)⟩

/-- The first failure of the rest comes one place later where the head passes. -/
theorem tail (hx : P 0 x) (h : FirstFailing (fun i => P (i + 1)) xs i y) :
    FirstFailing P (x :: xs) (i + 1) y := by
  refine ⟨h.here, h.fails, ?_⟩
  intro j z hlt hz
  cases j with
  | zero =>
      rw [List.getElem?_cons_zero, Option.some.injEq] at hz
      exact hz ▸ hx
  | succ j => exact h.before j z (Nat.lt_of_succ_lt_succ hlt) hz

end FirstFailing

/-- All elements pass a test if the head does and the rest does one place later. -/
theorem forall_getElem?_cons {P : Nat → α → Prop} {x : α} {xs : List α} (hx : P 0 x)
    (hxs : ∀ i y, xs[i]? = some y → P (i + 1) y) : ∀ i y, (x :: xs)[i]? = some y → P i y := by
  intro i y hi
  cases i with
  | zero =>
      rw [List.getElem?_cons_zero, Option.some.injEq] at hi
      exact hi ▸ hx
  | succ i => exact hxs i y hi

/-- Checks of all elements succeed, or they fail as the first one does which fails. -/
theorem forM_cases {P : α → Prop} {E : α → ε → Prop} {f : α → Except ε Unit}
    (hstep : ∀ x, (f x = .ok () ∧ P x) ∨ ∃ e, f x = .error e ∧ ¬P x ∧ E x e) (xs : List α) :
    (xs.forM f = .ok () ∧ ∀ x ∈ xs, P x) ∨
      ∃ i x e, FirstFailing (fun _ => P) xs i x ∧ xs.forM f = .error e ∧ E x e := by
  induction xs with
  | nil => exact .inl ⟨rfl, List.forall_mem_nil _⟩
  | cons x xs ih =>
      rw [List.forM]
      rcases hstep x with ⟨hx, hP⟩ | ⟨e, hx, hP, hE⟩
      · rw [hx]
        rcases ih with ⟨hxs, hall⟩ | ⟨i, y, e, hfirst, hxs, hE⟩
        · exact .inl ⟨hxs, List.forall_mem_cons.2 ⟨hP, hall⟩⟩
        · exact .inr ⟨i + 1, y, e, .tail hP hfirst, hxs, hE⟩
      · -- no check is made after the first failure
        rw [hx]
        exact .inr ⟨0, x, e, .head hP, rfl, hE⟩

end AgentAtlas
