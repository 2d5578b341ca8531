import ChiffOS.Heap.Layout

/-! The skip list of `alloc.c` in the heap's memory: search, insert and delete keep the list
and change nothing but the forward fields of its nodes. -/

namespace ChiffOS.Heap

open SkipList List Option

/-- `h'` differs from `h` at most in the forward fields of the nodes of `N`, in the level and in the
random state. -/
structure SkipFrame (N : ℕ → Prop) (h h' : Heap) : Prop where
  mem : SameOff (fun x => ∃ a, N a ∧ a + 20 ≤ x ∧ x < a + 48) h h'
  heapEnd : h'.heapEnd = h.heapEnd
  binHead : h'.binHead = h.binHead
  newestBig : h'.newestBig = h.newestBig

namespace SkipFrame

variable {N : ℕ → Prop} {h h' h'' : Heap}

theorem refl (N : ℕ → Prop) (h : Heap) : SkipFrame N h h := ⟨SameOff.refl _ h, rfl, rfl, rfl⟩

theorem trans (h1 : SkipFrame N h h') (h2 : SkipFrame N h' h'') : SkipFrame N h h'' :=
  ⟨h1.mem.trans h2.mem, h2.heapEnd.trans h1.heapEnd, h2.binHead.trans h1.binHead,
    h2.newestBig.trans h1.newestBig⟩

theorem setForward {i : ℕ} {node target : Option ℕ} (hi : i ≤ 6) (hn : ∀ a, node = some a → N a) :
    SkipFrame N h (h.setForward i node target) := by
  cases node with
  | none => exact ⟨SameOff.refl _ h, rfl, rfl, rfl⟩
  | some a =>
    refine ⟨(SameOff.refl _ h).setWord fun x h1 h2 => ⟨a, hn a rfl, by omega, by omega⟩, rfl, rfl, rfl⟩

/-- Words outside the forward fields are kept. -/
theorem word {a : ℕ} (hf : SkipFrame N h h') (ha : ∀ b, N b → a + 4 ≤ b + 20 ∨ b + 48 ≤ a) : h'.word a =
    h.word a := by
  refine hf.mem.word ?_
  rintro x h1 h2 ⟨b, hb, h3, h4⟩
  have := ha b hb
  omega

theorem size {a : ℕ} (hf : SkipFrame N h h') (ha : a % 4096 = 0) (hN : ∀ b, N b → b % 4096 = 0) :
    h'.size a = h.size a := by
  refine hf.word fun b hb => ?_
  have := hN b hb
  omega

end SkipFrame

def Node (a : ℕ) : Prop := a % 4096 = 0 ∧ a ≠ 0 ∧ a < 2 ^ 32

/-- A place of the skip list: its head, or a node at the start of a page. -/
def Place (w : Option ℕ) : Prop := ∀ a, w = some a → a % 4096 = 0

def Pointer (t : Option ℕ) : Prop := ∀ a, t = some a → a ≠ 0 ∧ a < 2 ^ 32

theorem ptr_getD_of_pointer {t : Option ℕ} (ht : Pointer t) : ptr (t.getD 0) = t := by
  cases t with
  | none => rfl
  | some a => exact ptr_of_ne (ht a rfl).1

theorem getD_lt_of_pointer {t : Option ℕ} (ht : Pointer t) : t.getD 0 < 2 ^ 32 := by
  cases t with
  | none => exact Nat.two_pow_pos 32
  | some a => exact (ht a rfl).2

theorem forward_setForward {h : Heap} {i j : ℕ} {node target w : Option ℕ} (hi : i ≤ 6) (hj : j ≤ 6)
    (hn : Place node) (hw : Place w) (ht : Pointer target) :
    (h.setForward i node target).forward j w = if j = i ∧ w = node then target else h.forward j w := by
  cases node with
  | none =>
    cases w with
    | none =>
      simp only [setForward, forward, and_true]
      by_cases hji : j = i
      · rw [hji, Function.update_self, if_pos rfl, ptr_getD_of_pointer ht]
      · rw [Function.update_of_ne hji, if_neg hji]
    | some b => simp [setForward, forward, Heap.word]
  | some a =>
    cases w with
    | none => simp [setForward, forward]
    | some b =>
      simp only [setForward, forward, some.injEq]
      have := hn a rfl
      have := hw b rfl
      by_cases hji : j = i ∧ b = a
      · rw [if_pos hji, hji.1, hji.2, word_setWord_self (getD_lt_of_pointer ht), ptr_getD_of_pointer ht]
      · rw [if_neg hji, word_setWord_ne (by omega)]

@[simp] theorem setForward_level (h : Heap) (i : ℕ) (node target : Option ℕ) :
    (h.setForward i node target).level = h.level := by
  cases node <;> rfl

/-! ### Insert -/

section insert

variable {h : Heap} {v : ℕ} {update : ℕ → Option ℕ}

theorem linkLevels_frame {N : ℕ → Prop} (hv : N v) {n : ℕ} (hn : n ≤ 6)
    (hu : ∀ i ≤ n, ∀ a, update i = some a → N a) : SkipFrame N h (h.linkLevels v update n) := by
  have hlink : ∀ g : Heap, ∀ i ≤ n, SkipFrame N g (linkLevels.link v update g i) := fun g i hi =>
    (SkipFrame.setForward (by omega) fun a ha => some.inj ha ▸ hv).trans
      (SkipFrame.setForward (by omega) (hu i hi))
  induction n with
  | zero => exact hlink h 0 le_rfl
  | succ n ih =>
    exact (ih (by omega) (fun i hi => hu i (by omega)) fun g i hi => hlink g i (by omega)).trans
      (hlink _ (n + 1) le_rfl)

theorem linkLevels_level (n : ℕ) : (h.linkLevels v update n).level = h.level := by
  induction n with
  | zero => simp [linkLevels, linkLevels.link]
  | succ n ih => rw [linkLevels, linkLevels.link, setForward_level, setForward_level, ih]

theorem linkLevels_forward {n i : ℕ} {w : Option ℕ} (hn : n ≤ 6) (hi : i ≤ 6) (hv : Node v)
    (hu : ∀ j ≤ n, Place (update j)) (hp : ∀ j ≤ n, Pointer (h.forward j (update j)))
    (hw : Place w) :
    (h.linkLevels v update n).forward i w =
      if i ≤ n ∧ w = update i then some v
      else if i ≤ n ∧ w = some v then h.forward i (update i) else h.forward i w := by
  have hvp : Place (some v) := fun a ha => some.inj ha ▸ hv.1
  have hvq : Pointer (some v) := fun a ha => some.inj ha ▸ hv.2
  have hlink : ∀ (g : Heap) (j : ℕ), j ≤ n → Pointer (g.forward j (update j)) → ∀ i' ≤ 6, ∀ w', Place w' →
      (linkLevels.link v update g j).forward i' w' =
        if i' = j ∧ w' = update j then some v
        else if i' = j ∧ w' = some v then g.forward j (update j) else g.forward i' w' := by
    intro g j hj hgp i' hi' w' hw'
    rw [linkLevels.link, forward_setForward (by omega) hi' (hu j hj) hw' hvq,
      forward_setForward (by omega) hi' hvp hw' hgp]
  induction n generalizing i w with
  | zero =>
    rw [linkLevels, hlink h 0 le_rfl (hp 0 le_rfl) i hi w hw]
    rcases Nat.eq_zero_or_pos i with rfl | hi0
    · simp
    · rw [if_neg (by omega), if_neg (by omega), if_neg (by omega), if_neg (by omega)]
  | succ n ih =>
    have ih' := fun {i w} hi hw => ih (i := i) (w := w) (by omega) hi (fun j hj => hu j (by omega))
      (fun j hj => hp j (by omega)) hw fun g j hj => hlink g j (by omega)
    have hg : (h.linkLevels v update n).forward (n + 1) (update (n + 1)) =
      h.forward (n + 1) (update (n + 1)) := by
      rw [ih' hn (hu _ le_rfl), if_neg (by omega), if_neg (by omega)]
    rw [linkLevels, hlink _ (n + 1) le_rfl (hg ▸ hp _ le_rfl) i hi w hw, hg, ih' hi hw]
    rcases Nat.lt_trichotomy i (n + 1) with hin | rfl | hin
    · rw [if_neg (by omega), if_neg (by omega)]
      simp only [show i ≤ n by omega, show i ≤ n + 1 by omega]
    · simp
    · simp only [show ¬ i ≤
        n by omega, show ¬ i ≤ n + 1 by omega, show ¬ i = n + 1 by omega, false_and, if_false]

end insert

theorem randomLevel_le (level left : ℕ) (r : SkipRand) :
    (SkipRand.randomLevel level left r).1 ≤ level + left := by
  induction left generalizing level r with
  | zero => simp [SkipRand.randomLevel]
  | succ left ih =>
    rw [SkipRand.randomLevel]
    split_ifs
    · have := ih (level + 1) r.skipRand.2
      omega
    · simp

section nodes

variable {h : Heap} {A B xs : List (ℕ × ℕ)} {v l : ℕ}

theorem place_lane (hx : ∀ a ∈ xs.map Prod.fst, Node a) (i : ℕ) : Place (lastPlace none (lane i xs)) := by
  intro a ha
  exact (hx a (lane_subset ((lastPlace_mem ha).resolve_left (by simp)))).1

/-- Behind the last node with a smaller key comes the next node of the level. -/
theorem forward_lane (R : Rep skipMaxLevel h.forward h.size h.level (A ++ B)) {i : ℕ} (hi : i ≤ 6) :
    h.forward i (lastPlace none (lane i A)) = (lane i B).head? := by
  have hc := R.chain i hi
  rw [lane_append] at hc
  exact hc.suffix.head

theorem pointer_lane (hx : ∀ a ∈ xs.map Prod.fst, Node a) (i : ℕ) : Pointer (lane i xs).head? := by
  intro a ha
  exact (hx a (lane_subset (mem_of_mem_head? ha))).2

theorem skipSearch_spec {k : ℕ} (R : Rep skipMaxLevel h.forward h.size h.level (A ++ B))
    (hA : ∀ x ∈ A, h.size x.1 < k) (hB : ∀ x ∈ B, k ≤ h.size x.1) (hlen : (A ++ B).length < h.heapEnd) :
    ∃ update, h.skipSearch k = some (lastPlace none (lane 0 A), update) ∧
      ∀ i ≤ h.level, update i = lastPlace none (lane i A) := by
  have hf : A.length < h.heapEnd := by
    rw [length_append] at hlen
    omega
  obtain ⟨update, h1, h2, -⟩ := R.search hA hB hf fun _ => none
  exact ⟨update, h1, h2⟩

theorem skipListFindbest_spec (R : Rep skipMaxLevel h.forward h.size h.level xs)
    (hlen : xs.length < h.heapEnd) (k : ℕ) :
    (h.skipListFindbest k = some none ∧ ∀ x ∈ xs, h.size x.1 < k) ∨
    ∃ A v l B, xs = A ++ (v, l) :: B ∧ h.skipListFindbest k = some (some v) ∧ k ≤ h.size v ∧
      ∀ x ∈ A, h.size x.1 < k := by
  obtain ⟨A, B, rfl, hA, hB⟩ := R.split k
  obtain ⟨update, hs, -⟩ := skipSearch_spec R hA hB hlen
  have hf : h.skipListFindbest k = some ((B.map Prod.fst).head?) := by
    simp [skipListFindbest, hs, R.next_zero]
  cases B with
  | nil => exact .inl ⟨hf, fun x hx => hA x (by simpa using hx)⟩
  | cons x B => exact .inr ⟨A, x.1, x.2, B, rfl, hf, hB x mem_cons_self, hA⟩

theorem skipListInsert_spec (R : Rep skipMaxLevel h.forward h.size h.level xs)
    (hx : ∀ a ∈ xs.map Prod.fst, Node a) (hv : Node v) (hvx : v ∉ xs.map Prod.fst)
    (hlen : xs.length < h.heapEnd) :
    ∃ h' xs', h.skipListInsert v = some h' ∧ Rep skipMaxLevel h'.forward h'.size h'.level xs' ∧
      (∀ a, a ∈ xs'.map Prod.fst ↔ a = v ∨ a ∈ xs.map Prod.fst) ∧
      SkipFrame (fun a => a = v ∨ a ∈ xs.map Prod.fst) h h' := by
  obtain ⟨A, B, rfl, hA, hB⟩ := R.split (h.size v)
  obtain ⟨update, hs, hu⟩ := skipSearch_spec R hA hB hlen
  have hfresh : h.forward 0 (lastPlace none (lane 0 A)) ≠ some v := fun he =>
    hvx (by rw [map_append]; exact mem_append_right _ (mem_of_mem_head? (R.next_zero ▸ he)))
  set lv := h.rand.randomLevel 0 skipMaxLevel with hlv
  have hl : lv.1 ≤ 6 := (randomLevel_le 0 6 h.rand).trans (by omega)
  set h0 : Heap := { h with rand := lv.2, level := max h.level lv.1 } with hh0
  set upd := fun i => if h.level < i then none else update i with hupd
  have hins : h.skipListInsert v = some (h0.linkLevels v upd lv.1) := by
    simp only [skipListInsert, hs, bind_eq_bind, bind_some, if_neg hfresh]
    rfl
  -- the places of the levels above the current one are the list head, as those levels are empty
  have hplace : ∀ i, upd i = lastPlace none (lane i A) := by
    intro i
    simp only [hupd]
    split_ifs with hi
    · have : lane i A = [] := by
        refine eq_nil_iff_forall_not_mem.mpr fun a ha => ?_
        obtain ⟨l, hl, hil⟩ := mem_lane.mp ha
        have := R.level _ (mem_append_left B hl)
        omega
      rw [this, lastPlace_nil]
    · exact hu i (by omega)
  have hxA : ∀ a ∈ A.map Prod.fst, Node a := fun a ha => hx a (by simp_all)
  have hxB : ∀ a ∈ B.map Prod.fst, Node a := fun a ha => hx a (by simp_all)
  have hfw : ∀ i ≤ 6, ∀ w, Place w → (h0.linkLevels v upd lv.1).forward i w =
      if i ≤ lv.1 ∧ w = lastPlace none (lane i A) then some v
      else if i ≤ lv.1 ∧ w = some v then h.forward i (lastPlace none (lane i A)) else h.forward i w := by
    intro i hi w hw
    rw [linkLevels_forward hl hi hv (fun j _ => hplace j ▸ place_lane hxA j) (fun j hj => ?_) hw, hplace]
    · rfl
    · rw [hplace, show h0.forward j = h.forward j from rfl, forward_lane R (by omega)]
      exact pointer_lane hxB j
  have hvA : ∀ i, some v ≠ lastPlace none (lane i A) := fun i he =>
    hvx (by
      rw [map_append]
      exact mem_append_left _ (lane_subset ((lastPlace_mem he.symm).resolve_left (by simp))))
  have hfr : SkipFrame (fun a => a = v ∨ a ∈ (A ++ B).map Prod.fst) h (h0.linkLevels v upd lv.1) := by
    have h00 : SkipFrame (fun a => a = v ∨ a ∈ (A ++ B).map Prod.fst) h h0 :=
      ⟨SameOff.refl _ h, rfl, rfl, rfl⟩
    refine h00.trans (linkLevels_frame (.inl rfl) hl fun i _ a ha => .inr ?_)
    rw [hplace] at ha
    rw [map_append]
    exact mem_append_left _ (lane_subset ((lastPlace_mem ha).resolve_left (by simp)))
  refine ⟨_, A ++ (v, lv.1) :: B, hins, ?_, fun a => by simp [or_left_comm], hfr⟩
  rw [linkLevels_level]
  have hR : Rep skipMaxLevel (h0.linkLevels v upd lv.1).forward h.size (max h.level lv.1)
    (A ++ (v, lv.1) :: B) := by
    refine R.insert hA hB hvx hl (fun i hi => ?_) (fun i hi => ?_) fun i hi w hw hwi => ?_
    · rw [hfw i (by omega) _ (place_lane hxA i), if_pos ⟨hi, rfl⟩]
    · rw [hfw i (by omega) _ (fun a ha => some.inj ha ▸ hv.1), if_neg fun hc => hvA i hc.2, if_pos ⟨hi, rfl⟩]
    · have hwv : w ≠ some v := by
        rintro rfl
        rcases hw with hw | ⟨x, hx', hxv⟩
        · simp at hw
        · exact hvx (some.inj hxv ▸ mem_map_of_mem hx')
      have hwp : Place w := by
        rintro a rfl
        rcases hw with hw | ⟨x, hx', hxv⟩
        · simp at hw
        · exact (hx a (some.inj hxv ▸ mem_map_of_mem hx')).1
      rw [hfw i hi w hwp, if_neg (by rintro ⟨h1, h2⟩; rcases hwi with h3 | h3; exacts [h3 h2, by omega]),
        if_neg fun hc => hwv hc.2]
  refine hR.congr (fun x hx' => ?_) (fun _ _ => rfl) fun _ _ _ _ => rfl
  have hn : ∀ b, (b = v ∨ b ∈ (A ++ B).map Prod.fst) → b % 4096 = 0 := by
    rintro b (rfl | hb)
    exacts [hv.1, (hx b hb).1]
  refine hfr.size (hn x.1 ?_) hn
  rcases mem_append.mp hx' with h1 | h1
  · exact .inr (mem_map_of_mem (mem_append_left B h1))
  · rcases mem_cons.mp h1 with rfl | h1
    · exact .inl rfl
    · exact .inr (mem_map_of_mem (mem_append_right A h1))

/-! ### Delete -/

theorem forward_pointer (h : Heap) (i a : ℕ) : Pointer (h.forward i (some a)) := by
  intro b hb
  obtain ⟨h1, h2⟩ := ptr_eq_some.mp hb
  exact ⟨h2, h1 ▸ h.word_lt _⟩

theorem unlinkLevels_frame {N : ℕ → Prop} {update : ℕ → Option ℕ} {i left : ℕ} (hi : i + left ≤ 7)
    (hu : ∀ j, i ≤ j → j < i + left → ∀ a, update j = some a → N a) :
    SkipFrame N h (h.unlinkLevels v update i left) := by
  induction left generalizing i h with
  | zero => exact SkipFrame.refl N h
  | succ left ih =>
    rw [unlinkLevels]
    split_ifs
    · exact SkipFrame.refl N h
    · exact (SkipFrame.setForward (by omega) (hu i le_rfl (by omega))).trans
        (ih (by omega) fun j hj hj' => hu j (by omega) (by omega))

theorem unlinkLevels_level {update : ℕ → Option ℕ} (i left : ℕ) :
    (h.unlinkLevels v update i left).level = h.level := by
  induction left generalizing i h with
  | zero => rfl
  | succ left ih =>
    rw [unlinkLevels]
    split_ifs
    · rfl
    · rw [ih, setForward_level]

/-- What the forward fields hold after the node is unlinked from the levels `i .. l`; the loop stops
at the first level that the node is not on. -/
theorem unlinkLevels_forward {update : ℕ → Option ℕ} {i left j top : ℕ} {w : Option ℕ} (htop : top ≤ 6)
    (hleft : i + left = top + 1) (hil : i ≤ l + 1) (hl : l ≤ top) (hv : v % 4096 = 0)
    (hu : ∀ j ≤ top, Place (update j)) (hon : ∀ j, i ≤ j → j ≤ l → h.forward j (update j) = some v)
    (hoff : l < top → h.forward (l + 1) (update (l + 1)) ≠ some v) (hj : j ≤ 6) (hw : Place w) :
    (h.unlinkLevels v update i left).forward j w =
      if i ≤ j ∧ j ≤ l ∧ w = update j then h.forward j (some v) else h.forward j w := by
  induction left generalizing i h with
  | zero => rw [unlinkLevels, if_neg (by omega)]
  | succ left ih =>
    rw [unlinkLevels]
    rcases Nat.lt_or_ge l i with hli | hli
    · obtain rfl : i = l + 1 := by omega
      rw [if_pos (hoff (by omega)), if_neg (by omega)]
    · rw [if_neg (not_not.mpr (hon i le_rfl hli))]
      have hset : ∀ j' ≤ 6, ∀ w', Place w' → (h.setForward i (update i) (h.forward i (some v))).forward j'
        w' =
          if j' = i ∧ w' = update i then h.forward i (some v) else h.forward j' w' := fun j' hj' w' hw' =>
        forward_setForward (by omega) hj' (hu i (by omega)) hw' (forward_pointer h i v)
      have hvp : Place (some v) := fun a ha => some.inj ha ▸ hv
      rw [ih (by omega) (by omega), hset j hj _ hvp, hset j hj w hw]
      · by_cases hji : j = i
        · subst hji
          rw [if_neg (by omega)]
          simp only [true_and, le_refl, hli]
        · simp only [hji, false_and, if_false, show i + 1 ≤ j ↔ i ≤ j by omega]
      · intro j' h1 h2
        rw [hset j' (by omega) _ (hu j' (by omega)), if_neg (by omega), hon j' (by omega) h2]
      · intro hlt
        rw [hset (l + 1) (by omega) _ (hu (l + 1) (by omega)), if_neg (by omega)]
        exact hoff hlt

theorem lowerLevel_spec {level : ℕ} (hc : ∀ i ≤ 6, Chain (h.forward i) none (lane i xs)) (hl : level ≤ 6)
    (hx : ∀ x ∈ xs, x.2 ≤ level) : h.lowerLevel level ≤ level ∧ ∀ x ∈ xs, x.2 ≤ h.lowerLevel level := by
  induction level with
  | zero => exact ⟨le_rfl, hx⟩
  | succ level ih =>
    rw [lowerLevel]
    split_ifs with hf
    · have hempty : lane (level + 1) xs = [] := by
        have := (hc (level + 1) hl).head
        rw [hf] at this
        exact List.head?_eq_none_iff.mp this.symm
      have := ih (by omega) fun x hx' => by
        by_contra hlt
        have : x.1 ∈ lane (level + 1) xs := mem_lane.mpr ⟨x.2, hx', by omega⟩
        simp [hempty] at this
      exact ⟨by omega, this.2⟩
    · exact ⟨le_rfl, hx⟩

theorem skipListDelete_spec (R : Rep skipMaxLevel h.forward h.size h.level (A ++ (v, l) :: B))
    (hx : ∀ a ∈ (A ++ (v, l) :: B).map Prod.fst, Node a) (hA : ∀ x ∈ A, h.size x.1 < h.size v)
    (hlen : (A ++ (v, l) :: B).length < h.heapEnd) :
    ∃ h', h.skipListDelete v = some h' ∧ Rep skipMaxLevel h'.forward h'.size h'.level (A ++ B) ∧
      SkipFrame (· ∈ (A ++ (v, l) :: B).map Prod.fst) h h' := by
  have hB : ∀ x ∈ (v, l) :: B, h.size v ≤ h.size x.1 := by
    rintro x hx'
    rcases mem_cons.mp hx' with rfl | hx'
    · exact le_rfl
    · exact (pairwise_cons.mp (pairwise_append.mp R.sorted).2.1).1 x hx'
  obtain ⟨update, hs, hu⟩ := skipSearch_spec R hA hB hlen
  have hv : Node v := hx v (by simp)
  have hlt : l ≤ h.level := R.level (v, l) (by simp)
  have htop : h.level ≤ 6 := R.top_le
  have hxA : ∀ a ∈ A.map Prod.fst, Node a := fun a ha => hx a (by simp_all)
  have hnext0 : h.forward 0 (lastPlace none (lane 0 A)) = some v := by simp [R.next_zero]
  have hskip : h.skipTo v h.heapEnd (some v) = some v := by
    obtain ⟨n, hn⟩ : ∃ n, h.heapEnd = n + 1 := ⟨h.heapEnd - 1, by omega⟩
    simp [hn, skipTo]
  set h1 := h.unlinkLevels v update 0 (h.level + 1) with hh1
  have hfw : ∀ j ≤ 6, ∀ w, Place w → h1.forward j w =
      if j ≤ l ∧ w = lastPlace none (lane j A) then h.forward j (some v) else h.forward j w := by
    intro j hj w hw
    rw [hh1, unlinkLevels_forward htop (by omega) (Nat.zero_le _) hlt hv.1 (fun j hj =>
      hu j hj ▸ place_lane hxA j)
      ?_ ?_ hj hw]
    · by_cases hjl : j ≤ l
      · simp only [Nat.zero_le, true_and, hu j (by omega)]
      · simp only [hjl, false_and, and_false]
    · intro j _ hj
      rw [hu j (by omega), forward_lane R (by omega), lane_cons_le hj, List.head?_cons]
    · intro hll
      rw [hu _ (by omega), forward_lane R (by omega), lane_cons_gt (by omega)]
      intro he
      have h2 := R.nodup
      rw [map_append, map_cons] at h2
      exact (nodup_cons.mp (nodup_append.mp h2).2.1).1 (lane_subset (mem_of_mem_head? he))
  have hfr : SkipFrame (· ∈ (A ++ (v, l) :: B).map Prod.fst) h h1 := by
    refine unlinkLevels_frame (by omega) fun j _ hj a ha => ?_
    rw [hu j (by omega)] at ha
    rw [map_append]
    exact mem_append_left _ (lane_subset ((lastPlace_mem ha).resolve_left (by simp)))
  have hR : ∀ top', top' ≤ 6 → (∀ x ∈ A ++ B, x.2 ≤ top') →
      Rep skipMaxLevel h1.forward h.size top' (A ++ B) := by
    intro top' ht hlv
    refine R.delete (fun i hi => ?_) (fun i hi w hw hwi => ?_) ht hlv
    · rw [hfw i (by omega) _ (place_lane hxA i), if_pos ⟨hi, rfl⟩]
    · have hwp : Place w := by
        rintro a rfl
        rcases hw with hw | ⟨x, hx', hxv⟩
        · simp at hw
        · refine (hx a (some.inj hxv ▸ mem_map_of_mem ?_)).1
          simp only [mem_append, mem_cons] at hx' ⊢
          exact hx'.imp_right .inr
      rw [hfw i hi w hwp, if_neg (by rintro ⟨h1, h2⟩; rcases hwi with h3 | h3; exacts [h3 h2, by omega])]
  have hlevel : h1.level = h.level := unlinkLevels_level 0 (h.level + 1)
  have hlow := lowerLevel_spec (hR h.level htop fun x hx' => R.level x (by simp_all; tauto)).chain htop
    fun x hx' => R.level x (by simp_all; tauto)
  refine ⟨{ h1 with level := h1.lowerLevel h1.level }, ?_, ?_,
    ⟨hfr.mem, hfr.heapEnd, hfr.binHead, hfr.newestBig⟩⟩
  · simp only [skipListDelete, hs, hnext0, hskip, bind_eq_bind, bind_some]
    rfl
  · rw [hlevel]
    refine (hR (h1.lowerLevel h.level) (hlow.1.trans htop) hlow.2).congr (fun x hx' => ?_) (fun _ _ => rfl)
      fun _ _ _ _ => rfl
    refine hfr.size (hx x.1 (mem_map_of_mem ?_)).1 fun b hb => (hx b hb).1
    simp only [mem_append, mem_cons] at hx' ⊢
    exact hx'.imp_right .inr

end nodes

end ChiffOS.Heap
