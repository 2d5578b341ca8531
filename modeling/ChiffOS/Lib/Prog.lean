import Mathlib.Tactic

/-! Programs over an interface. A program asks for operations of a signature `O` and goes on
with the answers; a handler runs the operations on a state and may fail. What is proved
once here, by induction on the program, is what does not depend on which program it is:
a simulation between two handlers carries every run of the one to a run of the other. Single
programs are specified by what they do from a given state, and at what cost. -/

namespace ChiffOS

open Option

inductive Prog (O : Type → Type) (α : Type) : Type 1 where
  | pure (a : α) : Prog O α
  | op {β : Type} (o : O β) (k : β → Prog O α) : Prog O α

/-- How a state answers an operation; `none` when the operation has no defined outcome. -/
abbrev Handler (O : Type → Type) (σ : Type) := ∀ {β : Type}, O β → σ → Option (β × σ)

namespace Prog

variable {O : Type → Type} {α β σ τ : Type}

def bind : Prog O α → (α → Prog O β) → Prog O β
  | .pure a, f => f a
  | .op o k, f => .op o fun b => (k b).bind f

def ask (o : O α) : Prog O α := .op o .pure

instance : Monad (Prog O) where
  pure := .pure
  bind := Prog.bind

theorem bind_assoc' {γ : Type} (p : Prog O α) (f : α → Prog O β) (g : β → Prog O γ) :
    (p.bind f).bind g = p.bind fun a => (f a).bind g := by
  induction p with
  | pure a => rfl
  | op o k ih =>
    simp only [Prog.bind]
    congr 1
    funext b
    exact ih b

theorem bind_pure' (p : Prog O α) : p.bind .pure = p := by
  induction p with
  | pure a => rfl
  | op o k ih =>
    simp only [Prog.bind]
    congr 1
    funext b
    exact ih b

instance : LawfulMonad (Prog O) := LawfulMonad.mk' (Prog O) bind_pure' (fun _ _ => rfl) bind_assoc'

def run (H : Handler O σ) : Prog O α → σ → Option (α × σ)
  | .pure a, s => some (a, s)
  | .op o k, s => (H o s).bind fun r => (k r.1).run H r.2

variable {H : Handler O σ}

@[simp] theorem run_pure (a : α) (s : σ) : (Pure.pure a : Prog O α).run H s = some (a, s) := rfl

@[simp] theorem run_ask (o : O α) (s : σ) : (ask o).run H s = H o s := by
  unfold ask run
  cases h : H o s with
  | none => rfl
  | some r => rfl

@[simp] theorem run_bind (p : Prog O α) (f : α → Prog O β) (s : σ) :
    (p >>= f).run H s = (p.run H s).bind fun r => (f r.1).run H r.2 := by
  change (p.bind f).run H s = _
  induction p generalizing s with
  | pure a => rfl
  | op o k ih =>
    simp only [Prog.bind, run, bind_assoc]
    congr 1
    funext r
    exact ih r.1 r.2

/-- A condition that an operation cannot establish holds before a run that ends with it. -/
theorem run_back {P : σ → Prop}
    (hback : ∀ {γ : Type} (o : O γ) s b s', H o s = some (b, s') → P s' → P s) :
    ∀ (p : Prog O α) (s s' : σ) (a : α), p.run H s = some (a, s') → P s' → P s
  | .pure _, s, s', a, hr, hP => by
    obtain ⟨-, rfl⟩ : _ ∧ s = s' := by simpa [run] using hr
    exact hP
  | .op o k, s, s', a, hr, hP => by
    simp only [run, bind_eq_some_iff] at hr
    obtain ⟨⟨b, u⟩, h1, h2⟩ := hr
    exact hback o s b u h1 (run_back hback (k b) u s' a h2 hP)

/-- Forward simulation, for the runs that end within a condition `P` on abstract states which no
operation can establish. If every such operation succeeds with the same answer on each related
concrete state, so does every program. -/
theorem simulate {G : Handler O τ} {R : σ → τ → Prop} {P : τ → Prop}
    (hback : ∀ {γ : Type} (o : O γ) t b t', G o t = some (b, t') → P t' → P t)
    (hstep : ∀ {γ : Type} (o : O γ) s t b t', R s t → G o t = some (b, t') → P t' →
      ∃ s', H o s = some (b, s') ∧ R s' t') :
    ∀ (p : Prog O α) (s : σ) (t t' : τ) (a : α), R s t → p.run G t = some (a, t') → P t' →
      ∃ s', p.run H s = some (a, s') ∧ R s' t'
  | .pure _, s, t, t', a, hR, hr, hP => by
    obtain ⟨rfl, rfl⟩ : _ ∧ t = t' := by simpa [run] using hr
    exact ⟨s, rfl, hR⟩
  | .op o k, s, t, t', a, hR, hr, hP => by
    simp only [run, bind_eq_some_iff] at hr
    obtain ⟨⟨b, u⟩, h1, h2⟩ := hr
    obtain ⟨s1, hs1, hR1⟩ := hstep o s t b u hR h1 (run_back hback (k b) u t' a h2 hP)
    obtain ⟨s2, hs2, hR2⟩ := simulate hback hstep (k b) s1 u t' a hR1 h2 hP
    exact ⟨s2, by simp [run, hs1, hs2], hR2⟩

/-! ### Programs that end

Total correctness with a bound on what a run costs, from the part of the state that the
specification sees (`view`), whatever the rest of the state is. -/

section Does

variable {ν : Type}

/-- From every state that looks like `v` the program ends, at cost `k` at most, in an answer and a
state that looks like `Q` says. -/
def Does (H : Handler O σ) (view : σ → ν) (cost : σ → ℕ) (p : Prog O α) (v : ν) (k : ℕ) (Q : α → ν → Prop) :
    Prop :=
  ∀ s, view s = v → ∃ a t, p.run H s = some (a, t) ∧ cost t ≤ cost s + k ∧ Q a (view t)

variable {view : σ → ν} {cost : σ → ℕ} {p : Prog O α} {f : α → Prog O β} {v : ν} {k m : ℕ}

theorem Does.pure {a : α} {Q : α → ν → Prop} (h : Q a v) : Does H view cost (Pure.pure a) v k Q :=
  fun s hs => ⟨a, s, rfl, Nat.le_add_right _ _, hs ▸ h⟩

theorem Does.bind {P : α → ν → Prop} {Q : β → ν → Prop} (hp : Does H view cost p v k P)
    (hf : ∀ a v', P a v' → Does H view cost (f a) v' m Q) : Does H view cost (p >>= f) v (k + m) Q := by
  intro s hs
  obtain ⟨a, t, h1, h2, h3⟩ := hp s hs
  obtain ⟨b, u, h4, h5, h6⟩ := hf a (view t) h3 t rfl
  exact ⟨b, u, by simp [h1, h4], by omega, h6⟩

theorem Does.mono {P Q : α → ν → Prop} (hp : Does H view cost p v k P) (hk : k ≤ m)
    (h : ∀ a v', P a v' → Q a v') : Does H view cost p v m Q := by
  intro s hs
  obtain ⟨a, t, h1, h2, h3⟩ := hp s hs
  exact ⟨a, t, h1, by omega, h a _ h3⟩

end Does

/-! ### What a run asks for -/

/-- The handler that also writes down what each operation shows. -/
def logging {ι : Type} (H : Handler O σ) (shown : ∀ {γ : Type}, O γ → List ι) : Handler O (σ × List ι) :=
  fun o s => (H o s.1).map fun r => (r.1, r.2, s.2 ++ shown o)

/-! ### What a run leaves alone -/

section Keeps

/-- Every run of the program relates the state before to the state after. -/
def Keeps (H : Handler O σ) (R : σ → σ → Prop) (p : Prog O α) : Prop :=
  ∀ s a s', p.run H s = some (a, s') → R s s'

variable {R : σ → σ → Prop} {p : Prog O α} {f : α → Prog O β}

theorem Keeps.pure (hrefl : ∀ s, R s s) (a : α) : Keeps H R (Pure.pure a : Prog O α) := by
  intro s b s' h
  obtain ⟨-, rfl⟩ : _ ∧ s = s' := by simpa using h
  exact hrefl s

/-- Every run of the program from the state ends as `Q` says. -/
def Post (H : Handler O σ) (p : Prog O α) (s : σ) (Q : α → σ → Prop) : Prop := ∀ a s', p.run H s =
    some (a, s') → Q a s'

theorem Post.pure {a : α} {s : σ} {Q : α → σ → Prop} (h : Q a s) : Post H (Pure.pure a) s Q := by
  intro b s' hr
  obtain ⟨rfl, rfl⟩ := Prod.mk.inj (some.inj hr)
  exact h

theorem Post.ask {o : O α} {s : σ} {Q : α → σ → Prop} (h : ∀ a s', H o s = some (a, s') → Q a s') : Post H
    (ask o) s Q := by
  intro a s' hr
  rw [run_ask] at hr
  exact h a s' hr

theorem Post.bind {s : σ} {P : α → σ → Prop} {Q : β → σ → Prop} (hp : Post H p s P)
    (hf : ∀ a s', P a s' → Post H (f a) s' Q) : Post H (p >>= f) s Q := by
  intro b s' h
  rw [run_bind] at h
  obtain ⟨⟨a, u⟩, h1, h2⟩ := bind_eq_some_iff.mp h
  exact hf a u (hp a u h1) b s' h2

theorem Post.mono {s : σ} {P Q : α → σ → Prop} (hp : Post H p s P) (h : ∀ a s', P a s' → Q a s') :
    Post H p s Q :=
  fun a s' hr => h a s' (hp a s' hr)

theorem Post.ite {p q : Prog O α} {s : σ} {Q : α → σ → Prop} {c : Prop} [Decidable c] (hp : c → Post H p s Q)
    (hq : ¬ c → Post H q s Q) : Post H (if c then p else q) s Q := by
  split_ifs with h
  · exact hp h
  · exact hq h

/-- The program asks for operations with `P` only. -/
def Only (P : ∀ γ, O γ → Prop) : Prog O α → Prop
  | .pure _ => True
  | .op o k => P _ o ∧ ∀ b, (k b).Only P

variable {P Q : ∀ γ, O γ → Prop}

theorem Only.pure (a : α) : Only P (Pure.pure a : Prog O α) := trivial

theorem Only.ask {o : O α} (h : P α o) : Only P (ask o) := ⟨h, fun _ => trivial⟩

variable {p : Prog O α}

theorem Only.bind {f : α → Prog O β} (hp : Only P p) (hf : ∀ a, Only P (f a)) : Only P (p >>= f) := by
  change Only P (p.bind f)
  induction p with
  | pure a => exact hf a
  | op o k ih => exact ⟨hp.1, fun b => ih b (hp.2 b)⟩

theorem Only.ite {p q : Prog O α} {c : Prop} [Decidable c] (hp : Only P p) (hq : Only P q) : Only P
    (if c then p else q) := by
  split_ifs
  · exact hp
  · exact hq

theorem Only.keeps (hp : Only P p) (hrefl : ∀ s, R s s) (htrans : ∀ {a b c}, R a b → R b c → R a c)
    (h : ∀ γ (o : O γ) s a s', P γ o → H o s = some (a, s') → R s s') : Keeps H R p := by
  induction p with
  | pure a => exact .pure hrefl a
  | op o k ih =>
    intro s b s' hr
    simp only [run, bind_eq_some_iff] at hr
    obtain ⟨⟨c, u⟩, h1, h2⟩ := hr
    exact htrans (h _ o s c u hp.1 h1) (ih c (hp.2 c) u b s' h2)

end Keeps

end Prog
end ChiffOS
