import Mathlib.Tactic

/-! Tables of buckets. A bucket is a chain of keys with their values, and a key is only ever in the bucket
that belongs to it; such a table is a finite map. -/

namespace ChiffOS.Buckets

open Function List

variable {K V : Type} [DecidableEq K]

def find (k : K) : List (K × V) → Option V
  | [] => none
  | (k', v) :: kvs => if k' = k then some v else find k kvs

/-- The value of a key is replaced where the key is, or the key comes to the end. -/
def put (k : K) (v : V) : List (K × V) → List (K × V)
  | [] => [(k, v)]
  | (k', v') :: kvs => if k' = k then (k', v) :: kvs else (k', v') :: put k v kvs

variable {kvs : List (K × V)}

theorem put_absent {k : K} (h : find k kvs = none) (v : V) : put k v kvs = kvs ++ [(k, v)] := by
  induction kvs with
  | nil => rfl
  | cons kv kvs ih =>
    obtain ⟨k', v'⟩ := kv
    by_cases hk : k' = k
    · simp [find, hk] at h
    · rw [find, if_neg hk] at h
      rw [put, if_neg hk, ih h, cons_append]

theorem find_eq_some {k : K} {v : V} (hn : (kvs.map Prod.fst).Nodup) : find k kvs = some v ↔
    (k, v) ∈ kvs := by
  induction kvs with
  | nil => simp [find]
  | cons kv kvs ih =>
    obtain ⟨k', v'⟩ := kv
    rw [map_cons, nodup_cons] at hn
    by_cases hk : k' = k
    · subst hk
      have hnot : (k', v) ∉ kvs := fun hm => hn.1 (mem_map.mpr ⟨_, hm, rfl⟩)
      simp [find, hnot, eq_comm]
    · rw [find, if_neg hk, ih hn.2]
      simp [Ne.symm hk]

theorem find_put (k k' : K) (v : V) (kvs : List (K × V)) : find k' (put k v kvs) = if k' =
    k then some v else find k' kvs := by
  induction kvs with
  | nil =>
    by_cases hk : k' = k
    · simp [put, find, hk]
    · simp [put, find, hk, Ne.symm hk]
  | cons kv kvs ih =>
    obtain ⟨k₁, v₁⟩ := kv
    by_cases h1 : k₁ = k
    · subst h1
      by_cases hk : k' = k₁
      · simp [put, find, hk]
      · simp [put, find, hk, Ne.symm hk]
    · rw [put, if_neg h1, find, find, ih]
      by_cases hk : k₁ = k'
      · subst hk
        simp [h1]
      · simp [hk]

theorem mem_put_keys {k k' : K} {v : V} (h : k' ∈ (put k v kvs).map Prod.fst) :
    k' = k ∨ k' ∈ kvs.map Prod.fst := by
  induction kvs with
  | nil => simpa [put] using h
  | cons kv kvs ih =>
    obtain ⟨k₁, v₁⟩ := kv
    by_cases h1 : k₁ = k
    · rw [put, if_pos h1] at h
      exact .inr h
    · rw [put, if_neg h1, map_cons, mem_cons] at h
      rcases h with h | h
      · exact .inr (by simp [h])
      · rcases ih h with h | h
        · exact .inl h
        · exact .inr (mem_cons_of_mem _ h)

theorem put_nodup {k : K} {v : V} (hn : (kvs.map Prod.fst).Nodup) : ((put k v kvs).map Prod.fst).Nodup := by
  induction kvs with
  | nil => simp [put]
  | cons kv kvs ih =>
    obtain ⟨k₁, v₁⟩ := kv
    by_cases h1 : k₁ = k
    · rw [put, if_pos h1]
      exact hn
    · rw [map_cons, nodup_cons] at hn
      rw [put, if_neg h1, map_cons, nodup_cons]
      refine ⟨?_, ih hn.2⟩
      intro hm
      exact (mem_put_keys hm).elim h1 hn.1

/-- The first pair with the key is taken out. -/
def del (k : K) : List (K × V) → List (K × V)
  | [] => []
  | (k', v) :: kvs => if k' = k then kvs else (k', v) :: del k kvs

theorem del_sublist (k : K) (kvs : List (K × V)) : (del k kvs).Sublist kvs := by
  induction kvs with
  | nil => exact .refl _
  | cons kv kvs ih =>
    obtain ⟨k', v'⟩ := kv
    by_cases hk : k' = k
    · rw [del, if_pos hk]
      exact sublist_cons_self _ _
    · rw [del, if_neg hk]
      exact ih.cons_cons _

theorem find_del {k : K} (hn : (kvs.map Prod.fst).Nodup) (k' : K) :
    find k' (del k kvs) = if k' = k then none else find k' kvs := by
  induction kvs with
  | nil => simp [del, find]
  | cons kv kvs ih =>
    obtain ⟨k₁, v₁⟩ := kv
    rw [map_cons, nodup_cons] at hn
    by_cases h1 : k₁ = k
    · subst h1
      rw [del, if_pos rfl]
      by_cases hk : k' = k₁
      · subst hk
        rw [if_pos rfl]
        cases hf : find k' kvs with
        | none => rfl
        | some v => exact absurd (mem_map.mpr ⟨_, (find_eq_some hn.2).mp hf, rfl⟩) hn.1
      · rw [if_neg hk, find, if_neg (Ne.symm hk)]
    · rw [del, if_neg h1, find, find, ih hn.2]
      by_cases hk : k₁ = k'
      · subst hk
        simp [h1]
      · simp [hk]

/-- The table holds the map `f`; `place` is the bucket of a key. -/
structure Table (place : K → ℕ) (t : ℕ → List (K × V)) (f : K → Option V) : Prop where
  nodup : ∀ i, ((t i).map Prod.fst).Nodup
  home : ∀ i kv, kv ∈ t i → place kv.1 = i
  find : ∀ k, find k (t (place k)) = f k

namespace Table

variable {place : K → ℕ} {t : ℕ → List (K × V)} {f : K → Option V}

theorem empty (place : K → ℕ) : Table place (fun _ => ([] : List (K × V))) fun _ => none :=
  ⟨fun _ => nodup_nil, fun _ _ h => absurd h not_mem_nil, fun _ => rfl⟩

theorem change (h : Table place t f) (k : K) {ys : List (K × V)} {v : Option V} (hn : (ys.map Prod.fst).Nodup)
    (hkeys : ∀ k' ∈ ys.map Prod.fst, k' = k ∨ k' ∈ (t (place k)).map Prod.fst)
    (hfind : ∀ k', Buckets.find k' ys = if k' = k then v else Buckets.find k' (t (place k))) :
    Table place (update t (place k) ys) (update f k v) := by
  refine ⟨?_, ?_, ?_⟩
  · intro i
    by_cases hi : i = place k
    · subst hi
      rw [update_self]
      exact hn
    · rw [update_of_ne hi]
      exact h.nodup i
  · intro i kv hm
    by_cases hi : i = place k
    · subst hi
      rw [update_self] at hm
      rcases hkeys _ (mem_map_of_mem hm) with he | hold
      · rw [he]
      · obtain ⟨kv', hm', he⟩ := mem_map.mp hold
        rw [← he]
        exact h.home _ kv' hm'
    · rw [update_of_ne hi] at hm
      exact h.home i kv hm
  · intro k'
    by_cases hk : k' = k
    · rw [hk, update_self, update_self, hfind, if_pos rfl]
    · rw [update_of_ne hk]
      by_cases hp : place k' = place k
      · rw [hp, update_self, hfind, if_neg hk, ← hp, h.find]
      · rw [update_of_ne hp, h.find]

theorem put (h : Table place t f) (k : K) (v : V) :
    Table place (update t (place k) (put k v (t (place k)))) (update f k (some v)) :=
  h.change k (put_nodup (h.nodup _)) (fun _ => mem_put_keys) fun k' => find_put k k' v _

theorem del (h : Table place t f) (k : K) :
    Table place (update t (place k) (del k (t (place k)))) (update f k none) := by
  have hsub := (del_sublist k (t (place k))).map Prod.fst
  exact h.change k ((h.nodup _).sublist hsub) (fun k' hk' => .inr (hsub.subset hk')) (find_del (h.nodup _))

def all (t : ℕ → List (K × V)) (size : ℕ) : List (K × V) := (List.range size).flatMap t

theorem mem_all (h : Table place t f) {size : ℕ} (hsize : ∀ k, place k < size) {k : K} {v : V} :
    (k, v) ∈ all t size ↔ f k = some v := by
  rw [← h.find k, find_eq_some (h.nodup _)]
  simp only [all, mem_flatMap, mem_range]
  constructor
  · rintro ⟨i, _, hm⟩
    rw [h.home i _ hm]
    exact hm
  · intro hm
    exact ⟨place k, hsize k, hm⟩

theorem all_nodup (h : Table place t f) (size : ℕ) : ((all t size).map Prod.fst).Nodup := by
  rw [all, map_flatMap, nodup_flatMap]
  refine ⟨fun i _ => h.nodup i, ?_⟩
  apply (nodup_range (n := size)).imp
  intro i j hij k hi hj
  obtain ⟨kv, hm, rfl⟩ := mem_map.mp hi
  obtain ⟨kv', hm', he⟩ := mem_map.mp hj
  have h1 := h.home i kv hm
  rw [← he, h.home j kv' hm'] at h1
  exact hij h1.symm

end Table

end ChiffOS.Buckets
