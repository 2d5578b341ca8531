import Mathlib.Order.Interval.Finset.Nat
import ChiffOS.Heap.SkipOps

/-! Runs of the skip list: free big blocks are inserted, and the block that a search finds best is deleted.
The random levels are drawn from a state that is given anew for each block, so every outcome is among them. -/

namespace ChiffOS.Heap

open SkipList List

inductive SkipEvent where
  | insert (value : ℕ) (rand : SkipRand)
  | delete (searchSize : ℕ)

abbrev SkipState := Heap × List ℕ

/-- An insertion with the random state it meets, or the deletion of what `findbest` returns. -/
def skipStep (s : SkipState) : SkipEvent → Option SkipState
  | .insert value rand => do
    let h ← { s.1 with rand := rand }.skipListInsert value
    some (h, value :: s.2)
  | .delete searchSize => do
    match ← s.1.skipListFindbest searchSize with
    | none => some s
    | some value =>
      let h ← s.1.skipListDelete value
      some (h, s.2.erase value)

def skipRun (s : SkipState) : List SkipEvent → Option SkipState
  | [] => some s
  | e :: es => (skipStep s e).bind fun s => skipRun s es

def SkipAllowed (s : SkipState) : List SkipEvent → Prop
  | [] => True
  | e :: es =>
    (∀ value rand, e = .insert value rand → Node value ∧ value < s.1.heapEnd ∧ value ∉ s.2) ∧
      ∀ s', skipStep s e = some s' → SkipAllowed s' es

instance (a : ℕ) : Decidable (Node a) := inferInstanceAs (Decidable (_ ∧ _))

instance SkipAllowed.decidable : ∀ (es : List SkipEvent) (s : SkipState), Decidable (SkipAllowed s es)
  | [], _ => isTrue trivial
  | .insert value rand :: es, s =>
    have := SkipAllowed.decidable es
    decidable_of_iff ((Node value ∧ value < s.1.heapEnd ∧ value ∉ s.2) ∧
        ∀ s' ∈ skipStep s (.insert value rand), SkipAllowed s' es)
      (and_congr_left fun _ => ⟨fun h _ _ he => (SkipEvent.insert.inj he).1 ▸ h, fun h => h value rand rfl⟩)
  | .delete searchSize :: es, s =>
    have := SkipAllowed.decidable es
    decidable_of_iff (∀ s' ∈ skipStep s (.delete searchSize), SkipAllowed s' es)
      ⟨fun h => ⟨fun _ _ he => SkipEvent.noConfusion he, h⟩, And.right⟩

structure Lists (s : SkipState) (xs : List (ℕ × ℕ)) : Prop where
  rep : Rep skipMaxLevel s.1.forward s.1.size s.1.level xs
  same : ∀ a, a ∈ xs.map Prod.fst ↔ a ∈ s.2
  nodup : s.2.Nodup
  node : ∀ a ∈ s.2, Node a ∧ a < s.1.heapEnd
  heap : 0 < s.1.heapEnd

theorem length_lt_of_nodup {l : List ℕ} {n : ℕ} (hn : 0 < n) (hl : l.Nodup) (h : ∀ a ∈ l, a ≠ 0 ∧ a < n) :
    l.length < n := by
  have hsub : l.toFinset ⊆ Finset.Ioo 0 n := by
    intro a ha
    obtain ⟨h0, hlt⟩ := h a (List.mem_toFinset.mp ha)
    exact Finset.mem_Ioo.mpr ⟨by omega, hlt⟩
  have hc := Finset.card_le_card hsub
  rw [List.toFinset_card_of_nodup hl, Nat.card_Ioo] at hc
  omega

namespace Lists

variable {s : SkipState} {xs : List (ℕ × ℕ)}

theorem length_lt (h : Lists s xs) : xs.length < s.1.heapEnd := by
  rw [← List.length_map (f := Prod.fst)]
  apply length_lt_of_nodup h.heap h.rep.nodup
  intro a ha
  obtain ⟨hn, hlt⟩ := h.node a ((h.same a).mp ha)
  exact ⟨hn.2.1, hlt⟩

theorem nodes (h : Lists s xs) : ∀ a ∈ xs.map Prod.fst, Node a := fun a ha => (h.node a ((h.same a).mp ha)).1

theorem insert (h : Lists s xs) {value : ℕ} (hv : Node value) (hlt : value < s.1.heapEnd) (hnew : value ∉ s.2)
    (rand : SkipRand) : ∃ s' xs', skipStep s (.insert value rand) = some s' ∧ Lists s' xs' := by
  have R : Rep skipMaxLevel ({ s.1 with rand := rand } : Heap).forward ({ s.1 with rand := rand } : Heap).size
      ({ s.1 with rand := rand } : Heap).level xs := h.rep
  obtain ⟨h', xs', hins, R', hmem, hfr⟩ := skipListInsert_spec R h.nodes hv
    (fun hx => hnew ((h.same value).mp hx)) h.length_lt
  have hend : h'.heapEnd = s.1.heapEnd := hfr.heapEnd
  refine ⟨(h', value :: s.2), xs', ?_, R', ?_, List.nodup_cons.mpr ⟨hnew, h.nodup⟩,
    ?_, by rw [hend]; exact h.heap⟩
  · simp only [skipStep, hins, Option.bind_eq_bind, Option.bind_some]
  · intro a
    rw [hmem a, h.same a, List.mem_cons]
  · intro a ha
    rw [hend]
    obtain rfl | ha := List.mem_cons.mp ha
    · exact ⟨hv, hlt⟩
    · exact h.node a ha

/-- What `findbest` returns: nothing if every block is too small, and else the first that is not. -/
theorem findbest (h : Lists s xs) (k : ℕ) :
    (s.1.skipListFindbest k = some none ∧ ∀ a ∈ s.2, s.1.size a < k) ∨
      ∃ v ∈ s.2, s.1.skipListFindbest k = some (some v) ∧ k ≤ s.1.size v ∧
        (∀ a ∈ s.2, k ≤ s.1.size a → s.1.size v ≤ s.1.size a) ∧
        ∃ h' ys, s.1.skipListDelete v = some h' ∧ Lists (h', s.2.erase v) ys := by
  obtain ⟨hnone, hall⟩ | ⟨A, v, l, B, rfl, hv, hk, hA⟩ := skipListFindbest_spec h.rep h.length_lt k
  · refine Or.inl ⟨hnone, fun a ha => ?_⟩
    obtain ⟨x, hx, rfl⟩ := List.mem_map.mp ((h.same a).mpr ha)
    exact hall x hx
  · have hvmem : v ∈ s.2 := (h.same v).mp (by simp)
    refine Or.inr ⟨v, hvmem, hv, hk, ?_, ?_⟩
    · intro a ha hka
      obtain ⟨x, hx, rfl⟩ := List.mem_map.mp ((h.same a).mpr ha)
      obtain hx | hx := List.mem_append.mp hx
      · have := hA x hx
        omega
      · obtain rfl | hx := List.mem_cons.mp hx
        · exact le_rfl
        · exact (List.pairwise_cons.mp (List.pairwise_append.mp h.rep.sorted).2.1).1 x hx
    · obtain ⟨h', hdel, R', hfr⟩ := skipListDelete_spec h.rep h.nodes (fun x hx => (hA x hx).trans_le hk)
        h.length_lt
      have hend : h'.heapEnd = s.1.heapEnd := hfr.heapEnd
      refine ⟨h', A ++ B, hdel, R', ?_, h.nodup.erase v, ?_, by rw [hend]; exact h.heap⟩
      · intro a
        have hn := h.rep.nodup
        rw [List.map_append, List.map_cons] at hn
        have hvn : v ∉ A.map Prod.fst ++ B.map Prod.fst := (List.nodup_middle.mp hn).notMem
        rw [h.nodup.mem_erase_iff, ← h.same a, List.map_append, List.map_append, List.map_cons,
          List.mem_append, List.mem_append, List.mem_cons]
        constructor
        · intro ha
          refine ⟨?_, by tauto⟩
          rintro rfl
          exact hvn (List.mem_append.mpr ha)
        · rintro ⟨hne, ha⟩
          tauto
      · intro a ha
        rw [hend]
        exact h.node a (List.mem_of_mem_erase ha)

theorem step (h : Lists s xs) (e : SkipEvent)
    (he : ∀ value rand, e = .insert value rand → Node value ∧ value < s.1.heapEnd ∧ value ∉ s.2) :
    ∃ s' xs', skipStep s e = some s' ∧ Lists s' xs' := by
  cases e with
  | insert value rand =>
    obtain ⟨h1, h2, h3⟩ := he value rand rfl
    exact h.insert h1 h2 h3 rand
  | delete searchSize =>
    obtain ⟨hnone, _⟩ | ⟨v, _, hv, _, _, h', ys, hdel, hl⟩ := h.findbest searchSize
    · exact ⟨s, xs, by simp only [skipStep, hnone, Option.bind_eq_bind, Option.bind_some], h⟩
    · refine ⟨(h', s.2.erase v), ys, ?_, hl⟩
      simp only [skipStep, hv, hdel, Option.bind_eq_bind, Option.bind_some]

theorem run : ∀ (es : List SkipEvent) (s : SkipState) (xs : List (ℕ × ℕ)), Lists s xs → SkipAllowed s es →
    ∃ s' xs', skipRun s es = some s' ∧ Lists s' xs' := by
  intro es
  induction es with
  | nil =>
    intro s xs h _
    exact ⟨s, xs, rfl, h⟩
  | cons e es ih =>
    intro s xs h ha
    obtain ⟨s₁, xs₁, h1, hl⟩ := h.step e ha.1
    obtain ⟨s', xs', hr, hl'⟩ := ih s₁ xs₁ hl (ha.2 s₁ h1)
    refine ⟨s', xs', ?_, hl'⟩
    rw [skipRun, h1, Option.bind_some]
    exact hr

/-- A higher level leaves out nodes of the one below. -/
theorem lane_sublist (i : ℕ) (xs : List (ℕ × ℕ)) : (lane (i + 1) xs).Sublist (lane i xs) := by
  apply List.Sublist.map
  apply List.monotone_filter_right
  intro x hx
  simp only [decide_eq_true_eq] at hx ⊢
  omega

end Lists

/-- An empty skip list. -/
structure NoBlocks (h : Heap) : Prop where
  forward : h.bigForward = fun _ => 0
  level : h.level = 0
  heap : 0 < h.heapEnd

theorem NoBlocks.lists {h : Heap} (h0 : NoBlocks h) : Lists (h, []) [] where
  rep := by
    refine ⟨List.Pairwise.nil, List.nodup_nil, by simp, ?_, ?_⟩
    · show h.level ≤ skipMaxLevel
      rw [h0.level]
      exact Nat.zero_le _
    · intro i _
      show ptr (h.bigForward i) = none
      rw [h0.forward]
      rfl
  same := by simp
  nodup := List.nodup_nil
  node := by simp
  heap := h0.heap

/-- The skip list through any run of insertions and deletions, whatever the random levels: every call
returns, level 0 is sorted by size and has exactly the blocks that were inserted and not deleted, every
higher level is a part of the one below, and `findbest` returns a smallest of the blocks that are large
enough, which can then be deleted, or `NULL` if there is none. -/
theorem skip_list_runs (h : Heap) (h0 : NoBlocks h) (es : List SkipEvent) (ha : SkipAllowed (h, []) es) :
    ∃ s, skipRun (h, []) es = some s ∧
      (∃ levels : ℕ → List ℕ, (∀ i ≤ skipMaxLevel, Chain (s.1.forward i) none (levels i)) ∧
        (levels 0).Pairwise (fun a b => s.1.size a ≤ s.1.size b) ∧ (levels 0).Perm s.2 ∧
        ∀ i < skipMaxLevel, (levels (i + 1)).Sublist (levels i)) ∧
      ∀ k, (s.1.skipListFindbest k = some none ∧ ∀ a ∈ s.2, s.1.size a < k) ∨
        ∃ v ∈ s.2, s.1.skipListFindbest k = some (some v) ∧ k ≤ s.1.size v ∧
          (∀ a ∈ s.2, k ≤ s.1.size a → s.1.size v ≤ s.1.size a) ∧ (s.1.skipListDelete v).isSome = true := by
  obtain ⟨s, xs, hr, hl⟩ := Lists.run es (h, []) [] h0.lists ha
  refine ⟨s, hr, ⟨fun i => lane i xs, hl.rep.chain, ?_, ?_, fun i _ => Lists.lane_sublist i xs⟩, ?_⟩
  · simp only [lane_zero]
    exact List.pairwise_map.mpr hl.rep.sorted
  · simp only [lane_zero]
    exact (List.perm_ext_iff_of_nodup hl.rep.nodup hl.nodup).mpr hl.same
  · intro k
    obtain hnone | ⟨v, hv, hf, hk, hmin, h', _, hdel, _⟩ := hl.findbest k
    · exact Or.inl hnone
    · exact Or.inr ⟨v, hv, hf, hk, hmin, by rw [hdel]; rfl⟩

def threeBlocks : Heap where
  mem a := if a = 4104 ∨ a = 8200 then 5 else if a = 12296 then 9 else 0
  heapEnd := 16384

/-- Two of the blocks have the same size; the one inserted last is found, and deleted, first. -/
def threeInserts : List SkipEvent :=
  [.insert 12288 {x := 1}, .insert 4096 {}, .insert 8192 {w := 0}, .delete 3]

theorem skip_list_runs_equal : ∃ s, skipRun (threeBlocks, []) threeInserts = some s ∧ s.2 = [4096, 12288] ∧
    (∃ levels : ℕ → List ℕ, (∀ i ≤ skipMaxLevel, Chain (s.1.forward i) none (levels i)) ∧
      (levels 0).Perm [4096, 12288]) ∧
    ∃ v ∈ s.2, s.1.skipListFindbest 6 = some (some v) ∧ 6 ≤ s.1.size v := by
  have ha : SkipAllowed (threeBlocks, []) threeInserts := by decide +kernel
  have hleft : (skipRun (threeBlocks, []) threeInserts).map (fun s => (s.2, s.2.map s.1.size)) =
      some ([4096, 12288], [5, 9]) := by decide +kernel
  obtain ⟨s, hs, ⟨levels, hc, -, hp, -⟩, hfind⟩ := skip_list_runs threeBlocks ⟨rfl, rfl, by decide⟩ _ ha
  rw [hs] at hleft
  obtain ⟨h2, hsize⟩ := Prod.mk.inj (Option.some.inj hleft)
  refine ⟨s, hs, h2, ⟨levels, hc, h2 ▸ hp⟩, ?_⟩
  obtain ⟨-, hall⟩ | ⟨v, hv, hf, hk, -⟩ := hfind 6
  · have hlt := hall 12288 (by simp [h2])
    simp only [h2, List.map_cons, List.map_nil, List.cons.injEq] at hsize
    omega
  · exact ⟨v, hv, hf, hk⟩

end ChiffOS.Heap
