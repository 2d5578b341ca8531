import ChiffOS.Lib.Chain

/-! Skip lists over a forward function `next i`, one linked list for each level `i`. The list
they stand for is a list of nodes with their levels, in the order of the keys; the nodes of
level `i` are those whose own level is at least `i`. -/

namespace ChiffOS.SkipList

open List

variable {α : Type*}

section search

variable (next : ℕ → Option α → Option α) (key : α → ℕ) (k : ℕ)

/-- Along one level, to the last node with a key below `k`. The fuel bounds the steps. -/
def walk (i : ℕ) : (fuel : ℕ) → Option α → Option (Option α)
  | 0, _ => none
  | fuel + 1, u =>
    match next i u with
    | none => some u
    | some a => if key a < k then walk i fuel (some a) else some u

/-- Down all levels from `i`, noting the place where each level was left. -/
def descend (fuel : ℕ) : (i : ℕ) → Option α → (ℕ → Option α) → Option (Option α × (ℕ → Option α))
  | 0, u, update => do
    let u ← walk next key k 0 fuel u
    some (u, Function.update update 0 u)
  | i + 1, u, update => do
    let u ← walk next key k (i + 1) fuel u
    descend fuel i u (Function.update update (i + 1) u)

end search

/-- The nodes of level `i`. -/
def lane (i : ℕ) (xs : List (α × ℕ)) : List α := (xs.filter (i ≤ ·.2)).map Prod.fst

/-- The forward function `next` holds the list `xs`, on levels up to `max`. -/
structure Rep (max : ℕ) (next : ℕ → Option α → Option α) (key : α → ℕ) (top : ℕ) (xs : List (α × ℕ)) :
    Prop where
  sorted : xs.Pairwise fun x y => key x.1 ≤ key y.1
  nodup : (xs.map Prod.fst).Nodup
  level : ∀ x ∈ xs, x.2 ≤ top
  top_le : top ≤ max
  chain : ∀ i ≤ max, Chain (next i) none (lane i xs)

variable {max top fuel k i : ℕ} {next next' : ℕ → Option α → Option α} {key key' : α → ℕ}
  {A B xs : List (α × ℕ)} {v : α} {l : ℕ} {u : Option α}

@[simp] theorem lane_append : lane i (A ++ B) = lane i A ++ lane i B := by simp [lane]

theorem lane_cons_le (h : i ≤ l) : lane i ((v, l) :: xs) = v :: lane i xs := by simp [lane, h]

theorem lane_cons_gt (h : l < i) : lane i ((v, l) :: xs) = lane i xs := by simp [lane, h]

theorem mem_lane {a : α} : a ∈ lane i xs ↔ ∃ l, (a, l) ∈ xs ∧ i ≤ l := by
  simp [lane]

theorem lane_subset {a : α} (h : a ∈ lane i xs) : a ∈ xs.map Prod.fst := by
  obtain ⟨l, hl, -⟩ := mem_lane.mp h
  exact mem_map_of_mem hl

theorem lane_nodup (h : (xs.map Prod.fst).Nodup) : (lane i xs).Nodup :=
  h.sublist (filter_sublist.map _)

theorem lane_length_le : (lane i xs).length ≤ xs.length := by
  simpa [lane] using length_filter_le _ xs

theorem lane_zero : lane 0 xs = xs.map Prod.fst := by simp [lane]

theorem place_of_lane {w : Option α} (h : w = none ∨ ∃ a ∈ lane i A ++ lane i B, w = some a) :
    w = none ∨ ∃ x ∈ A ++ B, w = some x.1 := by
  refine h.imp_right ?_
  rintro ⟨a, ha, rfl⟩
  obtain ⟨l, hl, -⟩ := mem_lane.mp (lane_append ▸ ha)
  exact ⟨(a, l), hl, rfl⟩

theorem lane_split : ∃ P Q, lane i xs = P ++ Q ∧ lastPlace none (lane (i + 1) xs) = lastPlace none P := by
  cases h : lastPlace none (lane (i + 1) xs) with
  | none => exact ⟨[], lane i xs, rfl, rfl⟩
  | some a =>
    obtain ⟨l, hl, hi⟩ := mem_lane.mp ((lastPlace_mem h).resolve_left (by simp))
    obtain ⟨P, Q, hPQ⟩ := append_of_mem (mem_lane.mpr ⟨l, hl, by omega⟩ : a ∈ lane i xs)
    exact ⟨P ++ [a], Q, by simp [hPQ], by simp [lastPlace_append]⟩

theorem walk_spec {Q R : List α} (h : Chain (next i) u (Q ++ R)) (hQ : ∀ a ∈ Q, key a < k)
    (hR : ∀ a ∈ R, k ≤ key a) (hf : Q.length < fuel) : walk next key k i fuel u = some (lastPlace u Q) := by
  induction Q generalizing u fuel with
  | nil =>
    obtain ⟨fuel, rfl⟩ : ∃ f, fuel = f + 1 := ⟨fuel - 1, by simp at hf; omega⟩
    cases R with
    | nil => simp [walk, show next i u = none from h]
    | cons a R => simp [walk, show next i u = some a from h.1, hR a mem_cons_self]
  | cons a Q ih =>
    obtain ⟨fuel, rfl⟩ : ∃ f, fuel = f + 1 := ⟨fuel - 1, by simp at hf; omega⟩
    have ih' := ih h.2 (fun b hb => hQ b (mem_cons_of_mem a hb)) (by simpa using hf)
    simp [walk, show next i u = some a from h.1, hQ a mem_cons_self, ih']

theorem descend_spec (hc : ∀ j ≤ i, Chain (next j) none (lane j (A ++ B))) (hA : ∀ x ∈ A, key x.1 < k)
    (hB : ∀ x ∈ B, k ≤ key x.1) (hf : A.length < fuel)
    (hu : ∃ P Q, lane i A = P ++ Q ∧ u = lastPlace none P) (update : ℕ → Option α) :
    ∃ update', descend next key k fuel i u update = some (lastPlace none (lane 0 A), update') ∧
      (∀ j ≤ i, update' j = lastPlace none (lane j A)) ∧ ∀ j, i < j → update' j = update j := by
  have hwalk : ∀ j ≤ i, ∀ w, (∃ P Q, lane j A = P ++ Q ∧ w = lastPlace none P) →
      walk next key k j fuel w = some (lastPlace none (lane j A)) := by
    rintro j hj w ⟨P, Q, hPQ, rfl⟩
    have hch := hc j hj
    rw [lane_append, hPQ, append_assoc] at hch
    rw [hPQ, lastPlace_append]
    refine walk_spec hch.suffix (fun a ha => ?_) (fun a ha => ?_) ?_
    · obtain ⟨l, hl, -⟩ := mem_lane.mp (hPQ ▸ mem_append_right P ha : a ∈ lane j A)
      exact hA _ hl
    · obtain ⟨l, hl, -⟩ := mem_lane.mp ha
      exact hB _ hl
    · have hlen := congrArg List.length hPQ
      have := @lane_length_le _ j A
      simp only [length_append] at hlen
      omega
  induction i generalizing u update with
  | zero =>
    refine ⟨Function.update update 0 (lastPlace none (lane 0 A)), ?_, ?_, ?_⟩
    · simp [descend, hwalk 0 le_rfl u hu]
    · intro j hj
      rw [Nat.le_zero.mp hj, Function.update_self]
    · intro j hj
      rw [Function.update_of_ne (by omega)]
  | succ i ih =>
    obtain ⟨update', h1, h2, h3⟩ := ih (fun j hj => hc j (by omega)) lane_split
      (Function.update update (i + 1) (lastPlace none (lane (i + 1) A))) fun j hj => hwalk j (by omega)
    refine ⟨update', by simp [descend, hwalk (i + 1) le_rfl u hu, h1], fun j hj => ?_, fun j hj => ?_⟩
    · rcases Nat.lt_or_ge i j with hij | hij
      · obtain rfl : j = i + 1 := by omega
        rw [h3 _ (by omega), Function.update_self]
      · exact h2 j hij
    · rw [h3 j (by omega), Function.update_of_ne (by omega)]

namespace Rep

theorem search (h : Rep max next key top (A ++ B)) (hA : ∀ x ∈ A, key x.1 < k) (hB : ∀ x ∈ B, k ≤ key x.1)
    (hf : A.length < fuel) (update : ℕ → Option α) :
    ∃ update', descend next key k fuel top none update = some (lastPlace none (lane 0 A), update') ∧
      (∀ j ≤ top, update' j = lastPlace none (lane j A)) ∧ ∀ j, top < j → update' j = update j :=
  descend_spec (fun j hj => h.chain j (hj.trans h.top_le)) hA hB hf ⟨[], lane top A, rfl, rfl⟩ update

theorem split (h : Rep max next key top xs) (k : ℕ) :
    ∃ A B, xs = A ++ B ∧ (∀ x ∈ A, key x.1 < k) ∧ ∀ x ∈ B, k ≤ key x.1 := by
  refine ⟨xs.takeWhile (key ·.1 < k), xs.dropWhile (key ·.1 < k), takeWhile_append_dropWhile.symm, ?_, ?_⟩
  · intro x hx
    simpa using all_eq_true.mp (all_takeWhile (l := xs)) x hx
  · have hs := h.sorted.sublist (dropWhile_sublist (fun x : α × ℕ => decide (key x.1 < k)))
    cases hd : xs.dropWhile (key ·.1 < k) with
    | nil => simp
    | cons y ys =>
      have hy : k ≤ key y.1 := by
        have := head_dropWhile_not (fun x : α × ℕ => decide (key x.1 < k)) (l := xs) (by simp [hd])
        simpa [hd] using this
      rw [hd] at hs
      intro x hx
      rcases mem_cons.mp hx with rfl | hx
      · exact hy
      · exact hy.trans ((pairwise_cons.mp hs).1 x hx)

theorem next_zero (h : Rep max next key top (A ++ B)) :
    next 0 (lastPlace none (lane 0 A)) = (B.map Prod.fst).head? := by
  have hc := h.chain 0 (Nat.zero_le _)
  rw [lane_append] at hc
  rw [hc.suffix.head, lane_zero]

theorem congr (h : Rep max next key top xs) (hk : ∀ x ∈ xs, key' x.1 = key x.1)
    (hn : ∀ i ≤ max, next' i none = next i none)
    (hx : ∀ i ≤ max, ∀ x ∈ xs, next' i (some x.1) = next i (some x.1)) : Rep max next' key' top xs := by
  refine ⟨h.sorted.imp_of_mem fun {x y} hx hy hxy => by rwa [hk x hx, hk y hy], h.nodup, h.level, h.top_le,
    fun i hi => (h.chain i hi).congr (hn i hi) fun a ha => ?_⟩
  obtain ⟨l, hl, -⟩ := mem_lane.mp ha
  exact hx i hi _ hl

/-- Linking in a node on the levels up to its own, behind the places the search noted. -/
theorem insert (h : Rep max next key top (A ++ B)) (hA : ∀ x ∈ A, key x.1 < key v)
    (hB : ∀ x ∈ B, key v ≤ key x.1) (hv : v ∉ (A ++ B).map Prod.fst) (hl : l ≤ max)
    (h1 : ∀ i ≤ l, next' i (lastPlace none (lane i A)) = some v)
    (h2 : ∀ i ≤ l, next' i (some v) = next i (lastPlace none (lane i A)))
    (h3 : ∀ i ≤ max, ∀ w, (w = none ∨ ∃ x ∈ A ++ B, w = some x.1) →
      (w ≠ lastPlace none (lane i A) ∨ l < i) → next' i w = next i w) :
    Rep max next' key (Nat.max top l) (A ++ (v, l) :: B) := by
  refine ⟨?_, ?_, ?_, Nat.max_le.mpr ⟨h.top_le, hl⟩, fun i hi => ?_⟩
  · obtain ⟨sA, sB, sAB⟩ := pairwise_append.mp h.sorted
    refine pairwise_append.mpr ⟨sA, pairwise_cons.mpr ⟨fun x hx => hB x hx, sB⟩, ?_⟩
    intro x hx y hy
    rcases mem_cons.mp hy with rfl | hy
    · exact (hA x hx).le
    · exact sAB x hx y hy
  · have := h.nodup
    rw [map_append] at this hv ⊢
    exact nodup_middle.mpr (nodup_cons.mpr ⟨hv, this⟩)
  · intro x hx
    rcases mem_append.mp hx with hx | hx
    · exact (h.level x (by simp [hx])).trans (Nat.le_max_left ..)
    · rcases mem_cons.mp hx with rfl | hx
      · exact Nat.le_max_right ..
      · exact (h.level x (by simp [hx])).trans (Nat.le_max_left ..)
  · have hc := h.chain i hi
    have hn := @lane_nodup _ i _ h.nodup
    rw [lane_append] at hc hn ⊢
    rcases Nat.lt_or_ge l i with hli | hli
    · rw [lane_cons_gt hli]
      exact hc.congr (h3 i hi none (.inl rfl) (.inr hli)) fun a ha =>
        h3 i hi _ (place_of_lane (.inr ⟨a, ha, rfl⟩)) (.inr hli)
    · rw [lane_cons_le hli]
      exact hc.insert hn (h1 i hli) (h2 i hli) fun w hw hw' => h3 i hi w (place_of_lane hw) (.inl hw')

/-- Unlinking the first node that the search for its key stops before. -/
theorem delete {top' : ℕ} (h : Rep max next key top (A ++ (v, l) :: B))
    (h1 : ∀ i ≤ l, next' i (lastPlace none (lane i A)) = next i (some v))
    (h2 : ∀ i ≤ max, ∀ w, (w = none ∨ ∃ x ∈ A ++ B, w = some x.1) →
      (w ≠ lastPlace none (lane i A) ∨ l < i) → next' i w = next i w)
    (ht : top' ≤ max) (hlv : ∀ x ∈ A ++ B, x.2 ≤ top') : Rep max next' key top' (A ++ B) := by
  have hsub : List.Sublist (A ++ B) (A ++ (v, l) :: B) := List.Sublist.append_left (sublist_cons_self _ _) A
  refine ⟨h.sorted.sublist hsub, h.nodup.sublist (hsub.map _), hlv, ht, fun i hi => ?_⟩
  have hc := h.chain i hi
  have hn := @lane_nodup _ i _ h.nodup
  rw [lane_append] at hc hn ⊢
  rcases Nat.lt_or_ge l i with hli | hli
  · rw [lane_cons_gt hli] at hc
    exact hc.congr (h2 i hi _ (.inl rfl) (.inr hli)) fun a ha =>
      h2 i hi _ (place_of_lane (.inr ⟨a, ha, rfl⟩)) (.inr hli)
  · rw [lane_cons_le hli] at hc hn
    exact hc.delete hn (h1 i hli) fun w hw hw' => h2 i hi w (place_of_lane hw) (.inl hw')

end Rep

end ChiffOS.SkipList
