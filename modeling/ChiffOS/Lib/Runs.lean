import Mathlib.Tactic

/-! Runs of a machine with a partial step function. What every step keeps, every run keeps; and where a step
keeps it only under a condition, every run does whose steps all meet the condition. -/

namespace ChiffOS.Machine

variable {S E : Type} (step : S → E → Option S)

def runs (s : S) : List E → Option S
  | [] => some s
  | e :: es => (step s e).bind fun s => runs s es

/-- Every event meets the condition in the state in which it comes. -/
def Guarded (P : S → E → Prop) (s : S) : List E → Prop
  | [] => True
  | e :: es => P s e ∧ ∀ s', step s e = some s' → Guarded P s' es

instance Guarded.decidable (P : S → E → Prop) [∀ s e, Decidable (P s e)] :
    ∀ (es : List E) (s : S), Decidable (Guarded step P s es)
  | [], _ => isTrue trivial
  | e :: es, s =>
    have := Guarded.decidable P es
    inferInstanceAs (Decidable (P s e ∧ ∀ s' ∈ step s e, Guarded step P s' es))

variable {step}

theorem runs_cons {s s' : S} {e : E} {es : List E} (h : runs step s (e :: es) = some s') :
    ∃ s₁, step s e = some s₁ ∧ runs step s₁ es = some s' := Option.bind_eq_some_iff.mp h

theorem Guarded.invariant {P : S → E → Prop} {I : S → Prop}
    (hstep : ∀ s e s', I s → P s e → step s e = some s' → I s') : ∀ (es : List E) (s s' : S),
    I s → Guarded step P s es → runs step s es = some s' → I s' := by
  intro es
  induction es with
  | nil =>
    intro s s' h _ hr
    obtain rfl := Option.some.inj hr
    exact h
  | cons e es ih =>
    intro s s' h hg hr
    obtain ⟨s₁, h1, h2⟩ := runs_cons hr
    exact ih s₁ s' (hstep s e s₁ h hg.1 h1) (hg.2 s₁ h1) h2

/-- A machine whose steps are those of a function, seen through a view, is after every run where the
function is. -/
theorem Guarded.simulates {T : Type} {P : S → E → Prop} {I : S → Prop} {view : S → T} {next : T → E → T}
    (hstep : ∀ s e s', I s → P s e → step s e = some s' → I s' ∧ view s' = next (view s) e) :
    ∀ (es : List E) (s s' : S), I s → Guarded step P s es → runs step s es = some s' →
      I s' ∧ view s' = es.foldl next (view s) := by
  intro es
  induction es with
  | nil =>
    intro s s' h _ hr
    obtain rfl := Option.some.inj hr
    exact ⟨h, rfl⟩
  | cons e es ih =>
    intro s s' h hg hr
    obtain ⟨s₁, h1, h2⟩ := runs_cons hr
    obtain ⟨hi, hv⟩ := hstep s e s₁ h hg.1 h1
    rw [List.foldl_cons, ← hv]
    exact ih s₁ s' hi (hg.2 s₁ h1) h2

theorem invariant {I : S → Prop} (hstep : ∀ s e s', I s → step s e = some s' → I s') (es : List E) (s s' : S)
    (h : I s) (hr : runs step s es = some s') : I s' := by
  refine Guarded.invariant (P := fun _ _ => True) (fun s e s' hi _ => hstep s e s' hi) es s s' h ?_ hr
  clear hr
  induction es generalizing s with
  | nil => trivial
  | cons e es ih => exact ⟨trivial, fun s₁ h1 => ih s₁ (hstep s e s₁ h h1)⟩

/-! ### Answers -/

section Answers

variable {A O : Type}

def answers (step : S → E → Option (O × S)) (s : S) : List E → Option (List O × S)
  | [] => some ([], s)
  | e :: es => (step s e).bind fun (o, s) => (answers step s es).map fun (os, s) => (o :: os, s)

/-- The runs of a specification, with the answers that it allows. -/
inductive SpecRun (spec : A → E → O → A → Prop) : A → List E → List O → A → Prop
  | nil (a : A) : SpecRun spec a [] [] a
  | cons {a a₁ a₂ : A} {e : E} {es : List E} {o : O} {os : List O} (h : spec a e o a₁)
    (hs : SpecRun spec a₁ es os a₂) :
    SpecRun spec a (e :: es) (o :: os) a₂

theorem SpecRun.refines {spec : A → E → O → A → Prop} {step : S → E → Option (O × S)} {I : S → A → Prop}
    (hstep : ∀ s a e o a', I s a → spec a e o a' → ∃ s', step s e = some (o, s') ∧ I s' a')
    {a a' : A} {es : List E} {os : List O} (h : SpecRun spec a es os a') :
    ∀ s, I s a → ∃ s', answers step s es = some (os, s') ∧ I s' a' := by
  induction h with
  | nil a =>
    intro s hs
    exact ⟨s, rfl, hs⟩
  | cons h1 _ ih =>
    intro s hs
    obtain ⟨s₁, hs₁, hi⟩ := hstep _ _ _ _ _ hs h1
    obtain ⟨s₂, hs₂, hi₂⟩ := ih s₁ hi
    exact ⟨s₂, by simp [answers, hs₁, hs₂], hi₂⟩

theorem specRun_of_answers {step : A → E → Option (O × A)} {a a' : A} {es : List E} {os : List O}
    (h : answers step a es = some (os, a')) : SpecRun (fun a e o a' => step a e = some (o, a')) a es os
      a' := by
  induction es generalizing a os with
  | nil =>
    obtain ⟨rfl, rfl⟩ := Prod.mk.inj (Option.some.inj h)
    exact .nil a
  | cons e es ih =>
    obtain ⟨⟨o, a₁⟩, h1, h2⟩ := Option.bind_eq_some_iff.mp h
    obtain ⟨⟨os, a₂⟩, h3, h4⟩ := Option.map_eq_some_iff.mp h2
    obtain ⟨rfl, rfl⟩ := Prod.mk.inj h4
    exact .cons h1 (ih h3)

/-- Every event meets the precondition of the specification in every state in which it can come. -/
def Allowed (pre : A → E → Prop) (spec : A → E → O → A → Prop) (a : A) : List E → Prop
  | [] => True
  | e :: es => pre a e ∧ ∀ o a', spec a e o a' → Allowed pre spec a' es

theorem Allowed.served {pre : A → E → Prop} {spec : A → E → O → A → Prop} {step : S → E → Option (O × S)}
    {I : S → A → Prop}
    (hstep : ∀ s a e, I s a → pre a e → ∃ o s' a', step s e = some (o, s') ∧ spec a e o a' ∧ I s' a') :
    ∀ (es : List E) (s : S) (a : A), I s a → Allowed pre spec a es →
      ∃ os s' a', answers step s es = some (os, s') ∧ SpecRun spec a es os a' ∧ I s' a' := by
  intro es
  induction es with
  | nil =>
    intro s a hi _
    exact ⟨[], s, a, rfl, .nil a, hi⟩
  | cons e es ih =>
    intro s a hi ha
    obtain ⟨o, s₁, a₁, hs₁, hspec, hi₁⟩ := hstep s a e hi ha.1
    obtain ⟨os, s₂, a₂, hs₂, hrun, hi₂⟩ := ih s₁ a₁ hi₁ (ha.2 o a₁ hspec)
    exact ⟨o :: os, s₂, a₂, by simp [answers, hs₁, hs₂], .cons hspec hrun, hi₂⟩

end Answers

end ChiffOS.Machine
