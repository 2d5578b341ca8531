import ChiffOS.Lib.Runs

/-! Two runs of one machine from related states: what each step keeps related stays so along the runs, and
the answers are the same. A step that fails in one run fails in the other. -/

namespace ChiffOS.Twins

variable {α β γ δ : Type}

theorem rel_bind {R : α → β → Prop} {T : γ → δ → Prop} {x : Option α} {y : Option β} {f : α → Option γ}
    {g : β → Option δ}
    (h : Option.Rel R x y) (hf : ∀ a b, R a b → Option.Rel T (f a) (g b)) :
      Option.Rel T (x.bind f) (y.bind g) := by
  cases h with
  | none => exact .none
  | some h => exact hf _ _ h

theorem rel_map {R : α → β → Prop} {T : γ → δ → Prop} {x : Option α} {y : Option β} {f : α → γ} {g : β → δ}
    (h : Option.Rel R x y) (hf : ∀ a b, R a b → T (f a) (g b)) : Option.Rel T (x.map f) (y.map g) := by
  cases h with
  | none => exact .none
  | some h => exact .some (hf _ _ h)

theorem rel_mono {R T : α → β → Prop} {x : Option α} {y : Option β} (h : Option.Rel R x y)
    (hR : ∀ a b, R a b → T a b) :
    Option.Rel T x y := by
  cases h with
  | none => exact .none
  | some h => exact .some (hR _ _ h)

theorem rel_foldlM {R : ℕ → α → β → Prop} {f : α → ℕ → Option α} {g : β → ℕ → Option β} (k : ℕ) {a : α}
    {b : β} (h : R 0 a b)
    (hstep : ∀ i < k, ∀ a b, R i a b → Option.Rel (R (i + 1)) (f a i) (g b i)) :
    Option.Rel (R k) ((List.range k).foldlM f a) ((List.range k).foldlM g b) := by
  induction k with
  | zero => exact .some h
  | succ k ih =>
    rw [List.range_succ, List.foldlM_append, List.foldlM_append]
    apply rel_bind (ih fun i hi => hstep i (by omega))
    intro a b hab
    simp only [List.foldlM_cons, List.foldlM_nil, Option.bind_eq_bind, Option.pure_def, Option.bind_fun_some]
    exact hstep k (by omega) a b hab

section Machine

variable {S E O : Type} {step : S → E → Option (O × S)}

/-- The condition of the steps has to be met in the first run only. -/
theorem answers_eq {P : S → E → Prop} {R : S → S → Prop}
    (hstep : ∀ s s' e, R s s' → P s e → Option.Rel (fun r r' => r.1 = r'.1 ∧ R r.2 r'.2) (step s e)
      (step s' e)) :
    ∀ (es : List E) (s s' : S), R s s' → Machine.Guarded (fun s e => (step s e).map Prod.snd) P s es →
      (Machine.answers step s es).map Prod.fst = (Machine.answers step s' es).map Prod.fst := by
  intro es
  induction es with
  | nil =>
    intro s s' _ _
    rfl
  | cons e es ih =>
    intro s s' h hg
    have hrel := hstep s s' e h hg.1
    simp only [Machine.answers]
    generalize h1 : step s e = x at hrel
    generalize step s' e = y at hrel
    cases hrel with
    | none => rfl
    | @some r r' hr =>
      obtain ⟨o, s₁⟩ := r
      obtain ⟨o', s₁'⟩ := r'
      obtain ⟨rfl, hr⟩ := hr
      have hnext := ih s₁ s₁' hr (hg.2 s₁ (congrArg (Option.map Prod.snd) h1))
      rw [Option.bind_some, Option.bind_some]
      generalize Machine.answers step s₁ es = x at hnext ⊢
      generalize Machine.answers step s₁' es = y at hnext ⊢
      have hcons := congrArg (Option.map (o :: ·)) hnext
      cases x <;> cases y <;> exact hcons

end Machine

end ChiffOS.Twins
