import ChiffOS.Ext2.AllocSpec

/-! The block map of an inode as a tree: the pointer blocks it may have, where each pointer is kept,
and which pointers lead to a file block. -/

namespace ChiffOS.Ext2

open Buf Option

/-- The pointer blocks of a file. The last range of the source is one block of pointers long, so of
its tree only the leftmost path exists. -/
inductive Node where
  | single
  | double
  | child (c : ℕ)
  | triple
  | tripleChild
  | tripleGrandchild
deriving DecidableEq

namespace Node

/-- The pointer blocks on the way to a pointer block. -/
def above : Node → List Node
  | child _ => [double]
  | tripleChild => [triple]
  | tripleGrandchild => [triple, tripleChild]
  | _ => []

theorem above_trans {k a b : Node} (ha : a ∈ k.above) (hb : b ∈ a.above) : b ∈ k.above := by
  cases k <;> simp [above] at ha
  case child c => subst ha; simp [above] at hb
  case tripleChild => subst ha; simp [above] at hb
  case tripleGrandchild => rcases ha with rfl | rfl <;> simp_all [above]

variable (ino : Buf) (blk : ℕ → Buf)

def block : Node → ℕ
  | single => inodeBlock ino 12
  | double => inodeBlock ino 13
  | child c => (blk (inodeBlock ino 13)).u32 (4 * c)
  | triple => inodeBlock ino 14
  | tripleChild => (blk (inodeBlock ino 14)).u32 (4 * 0)
  | tripleGrandchild => (blk ((blk (inodeBlock ino 14)).u32 (4 * 0))).u32 (4 * 0)

def Set (p : ℕ) : Node → Prop
  | child c => c < p ∧ double.block ino blk ≠ 0 ∧ (child c).block ino blk ≠ 0
  | tripleChild => triple.block ino blk ≠ 0 ∧ tripleChild.block ino blk ≠ 0
  | tripleGrandchild => triple.block ino blk ≠ 0 ∧ tripleChild.block ino blk ≠ 0 ∧
      tripleGrandchild.block ino blk ≠ 0
  | k => k.block ino blk ≠ 0

instance (p : ℕ) : DecidablePred (Set ino blk p) := fun k => by
  cases k <;> unfold Set <;> infer_instance

variable {ino blk}

theorem not_set (h : ∀ i < 15, 12 ≤ i → inodeBlock ino i = 0) {p : ℕ} (k : Node) : ¬ k.Set ino blk p := by
  have h12 := h 12 (by norm_num) (by norm_num)
  have h13 := h 13 (by norm_num) (by norm_num)
  have h14 := h 14 (by norm_num) (by norm_num)
  cases k <;> simp [Set, block, h12, h13, h14]

theorem Set.above {p : ℕ} {k a : Node} (h : k.Set ino blk p) (ha : a ∈ k.above) : a.Set ino blk p := by
  cases k with
  | child c =>
    obtain rfl : a = double := by simpa [Node.above] using ha
    exact h.2.1
  | tripleChild =>
    obtain rfl : a = triple := by simpa [Node.above] using ha
    exact h.1
  | tripleGrandchild =>
    have ha : a = triple ∨ a = tripleChild := by simpa [Node.above] using ha
    rcases ha with rfl | rfl
    · exact h.1
    · exact ⟨h.1, h.2.1⟩
  | _ => simp [Node.above] at ha

theorem Set.of_block {p : ℕ} {k : Node} {ino' : Buf} {blk' : ℕ → Buf} (h : k.Set ino blk p)
    (hb : ∀ a : Node, a.Set ino blk p → a.block ino' blk' = a.block ino blk) : k.Set ino' blk' p := by
  have hk := hb k h
  have ha := fun a (hm : a ∈ k.above) => hb a (h.above hm)
  cases k with
  | child c => exact ⟨h.1, ha double (by simp [Node.above]) ▸ h.2.1, hk ▸ h.2.2⟩
  | tripleChild => exact ⟨ha triple (by simp [Node.above]) ▸ h.1, hk ▸ h.2⟩
  | tripleGrandchild =>
    exact ⟨ha triple (by simp [Node.above]) ▸ h.1, ha tripleChild (by simp [Node.above]) ▸ h.2.1, hk ▸ h.2.2⟩
  | _ => exact fun h0 => h (hk.symm.trans h0)

section Congr

variable {ino' : Buf} {blk' : ℕ → Buf} (hi : ∀ i < 15, 12 ≤ i → inodeBlock ino' i = inodeBlock ino i)
include hi

/-- A pointer block stays where it is when the inode's pointers and the pointer blocks above it stay. -/
theorem block_congr {k : Node} (hb : ∀ a ∈ k.above, blk' (a.block ino blk) = blk (a.block ino blk)) :
    k.block ino' blk' = k.block ino blk := by
  cases k with
  | single => exact hi 12 (by norm_num) (by norm_num)
  | double => exact hi 13 (by norm_num) (by norm_num)
  | child c =>
    have := hb double (by simp [above])
    simp only [block] at this ⊢
    rw [hi 13 (by norm_num) (by norm_num), this]
  | triple => exact hi 14 (by norm_num) (by norm_num)
  | tripleChild =>
    have := hb triple (by simp [above])
    simp only [block] at this ⊢
    rw [hi 14 (by norm_num) (by norm_num), this]
  | tripleGrandchild =>
    have h1 := hb triple (by simp [above])
    have h2 := hb tripleChild (by simp [above])
    simp only [block] at h1 h2 ⊢
    rw [hi 14 (by norm_num) (by norm_num), h1, h2]

theorem set_congr {p : ℕ} {k : Node}
    (hb : ∀ a ∈ k.above, a.Set ino blk p → blk' (a.block ino blk) = blk (a.block ino blk))
     (h : k.Set ino' blk' p) : k.Set ino blk p := by
  have hd : double.block ino' blk' = double.block ino blk := block_congr hi (by simp [above])
  have ht : triple.block ino' blk' = triple.block ino blk := block_congr hi (by simp [above])
  cases k with
  | single => exact fun h0 => h ((hi 12 (by norm_num) (by norm_num)).trans h0)
  | double => exact fun h0 => h (hd.trans h0)
  | triple => exact fun h0 => h (ht.trans h0)
  | child c =>
    obtain ⟨h1, h2, h3⟩ := h
    rw [hd] at h2
    refine ⟨h1, h2, ?_⟩
    rwa [block_congr hi fun a ha => hb a ha ?_] at h3
    obtain rfl : a = double := by simpa [above] using ha
    exact h2
  | tripleChild =>
    obtain ⟨h1, h2⟩ := h
    rw [ht] at h1
    refine ⟨h1, ?_⟩
    rwa [block_congr hi fun a ha => hb a ha ?_] at h2
    obtain rfl : a = triple := by simpa [above] using ha
    exact h1
  | tripleGrandchild =>
    obtain ⟨h1, h2, h3⟩ := h
    rw [ht] at h1
    have hc : tripleChild.block ino' blk' = tripleChild.block ino blk := block_congr hi fun a ha => by
      obtain rfl : a = triple := by simpa [above] using ha
      exact hb triple (by simp [above]) h1
    rw [hc] at h2
    refine ⟨h1, h2, ?_⟩
    rwa [block_congr hi fun a ha => hb a ha ?_] at h3
    have ha : a = triple ∨ a = tripleChild := by simpa [above] using ha
    rcases ha with rfl | rfl
    · exact h1
    · exact ⟨h1, h2⟩

end Congr

section Link

variable {ino' : Buf} {blk' : ℕ → Buf} {p b : ℕ}

/-- What setting the pointer to a pointer block does to the tree: the others stay, one is added. -/
structure Linked (p : ℕ) (ino ino' : Buf) (blk blk' : ℕ → Buf) (k₁ : Node) (b : ℕ) : Prop where
  old : ∀ k : Node, k.Set ino blk p → k.block ino' blk' = k.block ino blk ∧ k.Set ino' blk' p
  only : ∀ k : Node, k.Set ino' blk' p → k.Set ino blk p ∨ k = k₁
  block : k₁.block ino' blk' = b
  set : k₁.Set ino' blk' p

theorem linked_inode {top : Node} {i : ℕ} (ht : top = single ∧ i = 12 ∨ top = double ∧ i = 13)
    (h0 : inodeBlock ino i = 0) (hb : b ≠ 0)
    (hptr : ∀ j < 15, inodeBlock ino' j = if j = i then b else inodeBlock ino j)
    (hblk : ∀ a : Node, a.Set ino blk p → blk' (a.block ino blk) = blk (a.block ino blk))
    (hzero : ∀ c < p, (blk' b).u32 (4 * c) = 0) : Linked p ino ino' blk blk' top b := by
  have h12 := hptr 12 (by norm_num)
  have h13 := hptr 13 (by norm_num)
  have h14 := hptr 14 (by norm_num)
  have hd : inodeBlock ino 13 ≠ 0 → blk' (inodeBlock ino 13) = blk (inodeBlock ino 13) := hblk double
  have htr : inodeBlock ino 14 ≠ 0 → blk' (inodeBlock ino 14) = blk (inodeBlock ino 14) := hblk triple
  have htc : tripleChild.Set ino blk p → _ := hblk tripleChild
  rcases ht with ⟨rfl, rfl⟩ | ⟨rfl, rfl⟩
  all_goals
    simp only [if_true, if_neg (show ¬ 12 = 13 by norm_num), if_neg (show ¬ 13 = 12 by norm_num),
      if_neg (show ¬ 14 = 12 by norm_num), if_neg (show ¬ 14 = 13 by norm_num)] at h12 h13 h14
    refine ⟨fun k hk => ?_, fun k hk => ?_, ?_, ?_⟩
    · cases k <;> simp only [Set, block, h12, h13, h14] at hk htc ⊢ <;> grind
    · cases k <;> simp only [Set, block, h12, h13, h14] at hk htc ⊢ <;> grind
    · simp only [block, h12, h13]
    · simpa only [Set, block, h12, h13] using hb

theorem linked_child {c : ℕ} (hc : c < p) (hd : inodeBlock ino 13 ≠ 0)
    (h0 : (blk (inodeBlock ino 13)).u32 (4 * c) = 0) (hb : b ≠ 0)
    (hptr : ∀ j < 15, inodeBlock ino' j = inodeBlock ino j)
    (hblk : ∀ a : Node, a.Set ino blk p → a ≠ double → blk' (a.block ino blk) = blk (a.block ino blk))
    (hdbl : ∀ c' < p, (blk' (inodeBlock ino 13)).u32 (4 * c') =
      if c' = c then b else (blk (inodeBlock ino 13)).u32 (4 * c')) :
        Linked p ino ino' blk blk' (child c) b := by
  have h12 := hptr 12 (by norm_num)
  have h13 := hptr 13 (by norm_num)
  have h14 := hptr 14 (by norm_num)
  have htr : inodeBlock ino 14 ≠ 0 → blk' (inodeBlock ino 14) = blk (inodeBlock ino 14) :=
    fun h => hblk triple h (by simp)
  have htc : tripleChild.Set ino blk p → _ := fun h => hblk tripleChild h (by simp)
  refine ⟨fun k hk => ?_, fun k hk => ?_, ?_, ?_⟩
  · cases k <;> simp only [Set, block, h12, h13, h14] at hk htc ⊢ <;> grind
  · cases k <;> simp only [Set, block, h12, h13, h14] at hk htc ⊢ <;> grind
  · simp only [block, h13, hdbl c hc, if_true]
  · simp only [Set, block, h13, hdbl c hc, if_true]
    exact ⟨hc, hd, hb⟩

end Link

end Node

/-! ### The way to a file block -/

/-- Where a block pointer is kept: in the inode or in a pointer block. -/
inductive Slot where
  | inode (i : ℕ)
  | entry (k : Node) (i : ℕ)
deriving DecidableEq

def Slot.value (ino : Buf) (blk : ℕ → Buf) : Slot → ℕ
  | inode i => inodeBlock ino i
  | entry k i => (blk (k.block ino blk)).u32 (4 * i)

/-- Where the pointer to file block `l` is kept, with `p` pointers to a block. -/
def place (p l : ℕ) : Option Slot :=
  if l < 12 then some (.inode l)
  else if l < 12 + p then some (.entry .single (l - 12))
  else if l < 12 + p + p * p then some (.entry (.child ((l - 12 - p) / p)) ((l - 12 - p) % p))
  else if l < 12 + p + p * p + p then some (.entry .tripleGrandchild (l - 12 - p - p * p))
  else none

def Slot.spine : Slot → List Node
  | inode _ => []
  | entry k _ => k.above ++ [k]

/-- The pointer blocks that file block `l` needs. -/
def spine (p l : ℕ) : List Node := ((place p l).map Slot.spine).getD []

/-- The device block of file block `l`, 0 beyond the block map. -/
def leaf (ino : Buf) (blk : ℕ → Buf) (p l : ℕ) : ℕ := ((place p l).map (Slot.value ino blk)).getD 0

variable {p l i : ℕ}

theorem place_inode (h : place p l = some (.inode i)) : i = l ∧ l < 12 := by
  unfold place at h
  split_ifs at h <;> simp at h
  omega

theorem leaf_congr {ino ino' : Buf} {blk blk' : ℕ → Buf} {p l : ℕ}
    (hi : ∀ i < 15, inodeBlock ino' i = inodeBlock ino i)
    (hb : ∀ a ∈ spine p l, blk' (a.block ino blk) = blk (a.block ino blk)) :
    leaf ino' blk' p l = leaf ino blk p l := by
  unfold leaf spine at *
  cases hp : place p l with
  | none => rfl
  | some s =>
    simp only [hp, map_some, getD_some] at hb ⊢
    cases s with
    | inode i =>
      have := place_inode hp
      exact hi i (by omega)
    | entry k i =>
      simp only [Slot.spine, List.mem_append, List.mem_singleton] at hb
      have hk : k.block ino' blk' = k.block ino blk := Node.block_congr (fun i h _ => hi i h) fun a ha =>
        hb a (.inl ha)
      simp only [Slot.value, hk, hb k (.inr rfl)]

theorem leaf_of_place {ino ino' : Buf} {blk blk' : ℕ → Buf} {p l : ℕ}
    (hi : ∀ i, place p l = some (.inode i) → inodeBlock ino' i = inodeBlock ino i)
    (hk : ∀ k i, place p l = some (.entry k i) →
      (blk' (k.block ino' blk')).u32 (4 * i) = (blk (k.block ino blk)).u32 (4 * i)) :
    leaf ino' blk' p l = leaf ino blk p l := by
  unfold leaf
  cases hp : place p l with
  | none => rfl
  | some s =>
    cases s with
    | inode i => exact hi i hp
    | entry k i => exact hk k i hp

variable {k : Node}

/-- The pointer block that holds the pointer is on the way. -/
theorem mem_spine_of_place (h : place p l = some (.entry k i)) : k ∈ spine p l := by
  simp [spine, h, Slot.spine]

/-- The pointer blocks that hold data pointers are above no other. -/
theorem not_above_of_place (hpl : place p l = some (.entry k i)) (a : Node) : ∀ c ∈ a.above, c ≠ k := by
  rintro c hc rfl
  unfold place at hpl
  split_ifs at hpl <;> simp at hpl <;> cases a <;> simp [Node.above, ← hpl.1] at hc

theorem ne_double_of_place (hpl : place p l = some (.entry k i)) : k ≠ .double := by
  rintro rfl
  unfold place at hpl
  split_ifs at hpl <;> simp at hpl

/-- The file block whose pointer is kept in the slot. -/
def Slot.owner (p : ℕ) : Slot → ℕ
  | inode i => i
  | entry .single i => 12 + i
  | entry (.child c) i => 12 + p + (c * p + i)
  | entry _ i => 12 + p + p * p + i

theorem place_owner {p l : ℕ} {s : Slot} (h : place p l = some s) : s.owner p = l := by
  unfold place at h
  split_ifs at h with h1 h2 h3 h4 <;> obtain rfl := some.inj h <;> simp only [Slot.owner]
  · omega
  · have := Nat.div_add_mod' (l - 12 - p) p
    omega
  · omega

/-- Different file blocks have their pointers in different places. -/
theorem place_inj {p l l' : ℕ} {s : Slot} (h : place p l = some s) (h' : place p l' = some s) : l = l' :=
  (place_owner h).symm.trans (place_owner h')

/-- The pointer blocks that the file blocks up to `L` need. -/
def nodesTo (p L : ℕ) : Finset Node := (Finset.range (L + 1)).biUnion fun l => (spine p l).toFinset

theorem mem_nodesTo {p l L : ℕ} (hk : k ∈ spine p l) (hl : l ≤ L) : k ∈ nodesTo p L :=
  Finset.mem_biUnion.mpr ⟨l, Finset.mem_range.mpr (by omega), List.mem_toFinset.mpr hk⟩

theorem spine_direct {p l : ℕ} (hl : l < 12) : spine p l = [] := by
  simp [spine, place, hl, Slot.spine]

theorem nodesTo_direct {p L : ℕ} (hL : L < 12) : nodesTo p L = ∅ := by
  refine Finset.eq_empty_iff_forall_notMem.mpr fun k hk => ?_
  obtain ⟨l, hl, hk⟩ := Finset.mem_biUnion.mp hk
  rw [spine_direct (by have := Finset.mem_range.mp hl; omega)] at hk
  simp at hk

theorem spine_above {p l : ℕ} {k a : Node} (hk : k ∈ spine p l) (ha : a ∈ k.above) : a ∈ spine p l := by
  unfold spine at *
  cases hp : place p l with
  | none => simp [hp] at hk
  | some s =>
    simp only [hp, map_some, getD_some] at hk ⊢
    cases s with
    | inode i => simp [Slot.spine] at hk
    | entry k' i =>
      simp only [Slot.spine, List.mem_append, List.mem_singleton] at hk ⊢
      rcases hk with hk | rfl
      · exact .inl (Node.above_trans hk ha)
      · exact .inl ha

section Path

variable {p l : ℕ} (hp : 0 < p) (hlt : 12 + p + p * p + p < 2 ^ 32)
include hp hlt

theorem mapPath_eq : mapPath p l =
    if l < 12 then .direct l
    else if l < 12 + p then .single (l - 12)
    else if l < 12 + p + p * p then .double ((l - 12 - p) / p) ((l - 12 - p) % p)
    else if l < 12 + p + p * p + p then .triple 0 0 (l - 12 - p - p * p)
    else .tooHigh := by
  have hpp : 0 < p * p := Nat.mul_pos hp hp
  have hle : p ≤ p * p := Nat.le_mul_self p
  have e1 : p * p % 2 ^ 32 = p * p := Nat.mod_eq_of_lt (by omega)
  have hdiv : ∀ n, n - n / p * p = n % p := fun n => by
    rw [Nat.mul_comm]
    exact (Nat.mod_eq_sub_mul_div (x := n) (k := p)).symm
  simp only [mapPath, e1, Nat.mod_eq_of_lt (show 12 + p < 2 ^ 32 by omega),
    Nat.mod_eq_of_lt (show 12 + p + p * p < 2 ^ 32 by omega), Nat.mod_eq_of_lt hlt, hdiv]
  split_ifs with h1 h2 h3 h4 h5
  · rfl
  · rfl
  · rfl
  · omega
  · have hc : l - 12 - p - p * p < p := by omega
    have hz : (l - 12 - p - p * p) / (p * p) = 0 := Nat.div_eq_of_lt (by omega)
    simp only [hz, Nat.zero_mul, Nat.sub_zero, Nat.div_eq_of_lt hc, Nat.mod_eq_of_lt hc]
  · rfl

end Path

theorem place_index (h : place p l = some (.entry k i)) : i < p := by
  unfold place at h
  split_ifs at h with h1 h2 h3 h4 <;> simp at h
  · omega
  · rw [← h.2]
    have : 0 < p := by
      rcases Nat.eq_zero_or_pos p with rfl | hp
      · omega
      · exact hp
    exact Nat.mod_lt _ this
  · omega

section Read

variable {α : Type} {d : Disk} {k : ℕ} {Q : α → Disk → Prop}

theorem does_loadEntry {f : ℕ × Buf → Ext2M α} {tmp : Buf} {b i : ℕ} (hb : d.Usable b)
    (hi : 4 * i + 4 ≤ d.blockSize)
    (h : ∀ tmp', Does (f ((d.blocks b).u32 (4 * i), tmp')) d k Q) :
      Does (loadEntry tmp b i >>= f) d (k + 1) Q := by
  have hp : Does (loadEntry tmp b i) d 1 fun r d' => d' = d ∧ r.1 = (d.blocks b).u32 (4 * i) :=
    does_readBlock hb (.pure ⟨rfl, u32_blit_in (Nat.zero_le _) (by omega)⟩)
  refine (hp.bind (m := k) ?_).mono (by omega) fun _ _ hq => hq
  rintro ⟨x, tmp'⟩ d' ⟨rfl, hx⟩
  obtain rfl : x = (d'.blocks b).u32 (4 * i) := hx
  exact h tmp'

theorem getBlockNumber_spec {ino : Buf} {l : ℕ} (hp : 0 < d.pointersPerBlock)
    (hlt : 12 + d.pointersPerBlock + d.pointersPerBlock * d.pointersPerBlock + d.pointersPerBlock < 2 ^ 32)
    (hbs : 4 * d.pointersPerBlock ≤ d.blockSize)
    (hu : ∀ a ∈ spine d.pointersPerBlock l, d.Usable (a.block ino d.blocks)) :
    Does (getBlockNumber ino l) d 3 fun b d' => d' = d ∧ b = leaf ino d.blocks d.pointersPerBlock l := by
  set p := d.pointersPerBlock
  refine does_this ?_
  rw [mapPath_eq hp hlt]
  unfold leaf spine at *
  by_cases h1 : l < 12
  · simp only [h1, if_true]
    exact .pure ⟨rfl, by simp [place, h1, Slot.value]⟩
  simp only [h1, if_false]
  by_cases h2 : l < 12 + p
  · have hpl : place p l = some (.entry .single (l - 12)) := by simp [place, h1, h2]
    simp only [h2, if_true, hpl, map_some, getD_some] at hu ⊢
    refine does_malloc fun tmp => does_loadEntry (hu .single (by simp [Slot.spine])) ?_ fun _ =>
      .pure ⟨rfl, rfl⟩
    have := place_index hpl
    omega
  simp only [h2, if_false]
  by_cases h3 : l < 12 + p + p * p
  · have hpl : place p l = some (.entry (.child ((l - 12 - p) / p)) ((l - 12 - p) % p)) := by
      simp [place, h1, h2, h3]
    simp only [h3, if_true, hpl, map_some, getD_some] at hu ⊢
    have hd := place_index hpl
    have hc : (l - 12 - p) / p < p := Nat.div_lt_of_lt_mul (by omega)
    refine does_malloc fun tmp => does_loadEntry (hu .double (by simp [Slot.spine, Node.above])) (by omega)
      fun tmp' =>
      does_loadEntry (hu (.child ((l - 12 - p) / p)) (by simp [Slot.spine])) (by omega) fun _ =>
        .pure ⟨rfl, rfl⟩
  simp only [h3, if_false]
  by_cases h4 : l < 12 + p + p * p + p
  · have hpl : place p l = some (.entry .tripleGrandchild (l - 12 - p - p * p)) := by
      simp [place, h1, h2, h3, h4]
    simp only [h4, if_true, hpl, map_some, getD_some] at hu ⊢
    have hg := place_index hpl
    refine does_malloc fun tmp => does_loadEntry (hu .triple (by simp [Slot.spine, Node.above])) (by omega)
      fun tmp' =>
      does_loadEntry (hu .tripleChild (by simp [Slot.spine, Node.above])) (by omega) fun tmp'' =>
      does_loadEntry (hu .tripleGrandchild (by simp [Slot.spine])) (by omega) fun _ => .pure ⟨rfl, rfl⟩
  simp only [h4, if_false]
  exact .pure ⟨rfl, by simp [place, h1, h2, h3, h4]⟩

end Read

end ChiffOS.Ext2
