import Mathlib.Tactic

/-! A tree of names as the list of its nodes, in the order of their creation, each with its parent and its
name. A path of names leads to one node at most, and one path at most leads to a node; a new node adds its
own path and no other. -/

namespace ChiffOS

structure NameNode (α : Type) where
  parent : Option ℕ
  name : α
deriving DecidableEq

namespace NameTree

variable {α : Type} [DecidableEq α]

def child (nodes : List (NameNode α)) (p : Option ℕ) (a : α) : Option ℕ := nodes.findIdx? fun n => n.parent =
    p ∧ n.name = a

def walk (nodes : List (NameNode α)) : Option ℕ → List α → Option (Option ℕ)
  | p, [] => some p
  | p, a :: as => (child nodes p a).bind fun k => walk nodes (some k) as

def Closed (nodes : List (NameNode α)) : Prop := ∀ n ∈ nodes, ∀ k, n.parent = some k → k < nodes.length

variable {nodes : List (NameNode α)} {p q : Option ℕ} {a : α} {as : List α} {k : ℕ}

theorem child_some (h : child nodes p a = some k) : nodes[k]? = some ⟨p, a⟩ := by
  obtain ⟨hlt, hk, -⟩ := List.findIdx?_eq_some_iff_getElem.mp h
  rw [List.getElem?_eq_getElem hlt, Option.some_inj]
  obtain ⟨hp, ha⟩ := of_decide_eq_true hk
  rw [← hp, ← ha]

theorem child_lt (h : child nodes p a = some k) : k < nodes.length :=
  (List.findIdx?_eq_some_iff_getElem.mp h).1

theorem child_append (n : NameNode α) : child (nodes ++ [n]) p a =
    (child nodes p a).or (if n.parent = p ∧ n.name = a then some nodes.length else none) := by
  unfold child
  rw [List.findIdx?_append]
  congr 1
  by_cases h : n.parent = p ∧ n.name = a
  · simp [List.findIdx?_singleton, h]
  · simp [List.findIdx?_singleton, h]

theorem walk_append (as bs : List α) : walk nodes p (as ++ bs) = (walk nodes p as).bind fun q =>
    walk nodes q bs := by
  induction as generalizing p with
  | nil => rfl
  | cons a as ih =>
    simp only [List.cons_append, walk]
    cases child nodes p a with
    | none => rfl
    | some k => exact ih

theorem walk_concat : walk nodes p (as ++ [a]) = (walk nodes p as).bind fun q =>
    (child nodes q a).map some := by
  rw [walk_append]
  congr 1
  funext q
  rw [walk]
  cases child nodes q a <;> rfl

theorem walk_of_prefix {bs : List α} (h : as <+: bs) (hb : (walk nodes p bs).isSome) :
    (walk nodes p as).isSome := by
  obtain ⟨cs, rfl⟩ := h
  rw [walk_append] at hb
  exact Option.isSome_of_isSome_bind hb

/-- Where a path with a last name ends, there is a node with this name below the end of the path before it. -/
theorem walk_concat_some (h : walk nodes none (as ++ [a]) = some q) :
    ∃ p k, walk nodes none as = some p ∧ child nodes p a = some k ∧ q = some k := by
  rw [walk_concat] at h
  obtain ⟨p, hp, hq⟩ := Option.bind_eq_some_iff.mp h
  obtain ⟨k, hk, rfl⟩ := Option.map_eq_some_iff.mp hq
  exact ⟨p, k, hp, hk, rfl⟩

theorem walk_join_isSome (h : as ≠ []) : (walk nodes none as).join.isSome ↔ (walk nodes none as).isSome := by
  obtain ⟨bs, b, rfl⟩ := List.eq_nil_or_concat' as |>.resolve_left h
  cases hw : walk nodes none (bs ++ [b]) with
  | none => rfl
  | some q =>
    obtain ⟨-, k, -, -, rfl⟩ := walk_concat_some hw
    rfl

theorem walk_inj {bs : List α} (ha : walk nodes none as = some q) (hb : walk nodes none bs = some q) : as =
    bs := by
  induction as using List.reverseRecOn generalizing bs q with
  | nil =>
    obtain rfl | ⟨bs, b, rfl⟩ := List.eq_nil_or_concat' bs
    · rfl
    · obtain ⟨p, k, -, -, rfl⟩ := walk_concat_some hb
      cases ha
  | append_singleton as a ih =>
    obtain ⟨p, k, hp, hk, rfl⟩ := walk_concat_some ha
    obtain rfl | ⟨bs, b, rfl⟩ := List.eq_nil_or_concat' bs
    · cases hb
    · obtain ⟨p', k', hp', hk', heq⟩ := walk_concat_some hb
      obtain rfl := Option.some.inj heq
      have hnode := (child_some hk).symm.trans (child_some hk')
      obtain ⟨rfl, rfl⟩ := NameNode.mk.inj (Option.some.inj hnode)
      rw [ih hp hp']

theorem walk_lt (h : walk nodes none as = some (some k)) : k < nodes.length := by
  obtain rfl | ⟨as, a, rfl⟩ := List.eq_nil_or_concat' as
  · cases h
  · obtain ⟨p, k', -, hk, heq⟩ := walk_concat_some h
    obtain rfl := Option.some.inj heq
    exact child_lt hk

omit [DecidableEq α] in
theorem Closed.insert (h : Closed nodes) (hp : ∀ k, p = some k → k < nodes.length) (a : α) : Closed
    (nodes ++ [⟨p, a⟩]) := by
  intro n hn k hk
  rw [List.length_append, List.length_singleton]
  rcases List.mem_append.mp hn with hn | hn
  · exact Nat.lt_succ_of_lt (h n hn k hk)
  · rw [List.mem_singleton.mp hn] at hk
    exact Nat.lt_succ_of_lt (hp k hk)

theorem Closed.child_length (h : Closed nodes) (a : α) : child nodes (some nodes.length) a = none := by
  unfold child
  rw [List.findIdx?_eq_none_iff]
  intro n hn
  refine decide_eq_false fun hpa => ?_
  exact Nat.lt_irrefl _ (h n hn _ hpa.1)

theorem walk_insert (hc : Closed nodes) (hp : walk nodes none as = some p) (ha : child nodes p a = none)
    (bs : List α) :
    walk (nodes ++ [⟨p, a⟩]) none bs = if bs = as ++ [a] then some (some nodes.length) else walk nodes none
      bs := by
  induction bs using List.reverseRecOn with
  | nil => rw [if_neg (by simp)]; rfl
  | append_singleton bs b ih =>
    rw [walk_concat, ih]
    by_cases hbs : bs = as ++ [a]
    · -- below the new node there is nothing
      have hnew : p ≠ some nodes.length := by
        rintro rfl
        exact Nat.lt_irrefl _ (walk_lt hp)
      rw [if_pos hbs, Option.bind_some, child_append, hc.child_length, if_neg fun h => hnew h.1]
      rw [if_neg (by rw [hbs]; simp), walk_concat, hbs, walk_concat, hp, Option.bind_some, ha]
      rfl
    · rw [if_neg hbs, walk_concat]
      cases hq : walk nodes none bs with
      | none =>
        have hne : bs ++ [b] ≠ as ++ [a] := by
          intro heq
          rw [(List.append_inj' heq rfl).1, hp] at hq
          cases hq
        rw [if_neg hne]
        rfl
      | some q =>
        rw [Option.bind_some, Option.bind_some, child_append]
        by_cases heq : bs ++ [b] = as ++ [a]
        · obtain ⟨rfl, hb⟩ := List.append_inj' heq rfl
          obtain rfl := (List.cons.inj hb).1
          rw [hp] at hq
          obtain rfl := Option.some.inj hq
          rw [if_pos heq, ha, if_pos ⟨rfl, rfl⟩]
          rfl
        · have hne : ¬ (p = q ∧ a = b) := by
            rintro ⟨rfl, rfl⟩
            exact heq (by rw [walk_inj hp hq])
          rw [if_neg heq, if_neg hne, Option.or_none]

end NameTree

end ChiffOS
