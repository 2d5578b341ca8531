import ChiffOS.Heap.Alloc

/-! What the memory between the start of the heap and `heap_end` is made of: blocks of whole
pages, each a small bin page or a big block. `Inv` says that the headers, the free stacks, the
bin lists and the skip list in memory are those of such a map of blocks. -/

namespace ChiffOS.Heap

/-- A small bin with its stack of free cells, top first, or a big block with the pointer it was
given out as, unless it is free. -/
inductive Block where
  | small (bucket : ℕ) (free : List ℕ)
  | big (size : ℕ) (owner : Option ℕ)

def Block.len : Block → ℕ
  | small _ _ => 4096
  | big size _ => size + 48

/-- The bytes in which the allocator keeps its own data for the block at `a`: the header with
the skip list fields, and the links of the free stack. -/
def Block.MetaAt (a : ℕ) : Block → ℕ → Prop
  | small _ free, x => (a ≤ x ∧ x < a + 16) ∨ ∃ c ∈ free, c ≤ x ∧ x < c + 4
  | big _ owner, x => (a ≤ x ∧ x < a + 48) ∨ (owner = none ∧ a + 48 ≤ x ∧ x < a + 52)

def IsMeta (M : ℕ → Option Block) (x : ℕ) : Prop := ∃ a k, M a = some k ∧ k.MetaAt a x

def cellCount (bucket : ℕ) : ℕ := 4080 >>> (bucket + 2)

def IsCell (a bucket c : ℕ) : Prop := ∃ i < cellCount bucket, c = a + 16 + i * 2 ^ (bucket + 2)

/-- The free stack of a bin: the head field, then the first word of each cell. -/
def stackNext (h : Heap) (a : ℕ) : Option ℕ → Option ℕ
  | none => ptr (h.word (a + 4))
  | some c => ptr (h.word c)

/-- The list of the bins of a bucket that have a free cell. -/
def binNext (h : Heap) (b : ℕ) : Option ℕ → Option ℕ
  | none => ptr (h.binHead b)
  | some a => ptr (h.word a)

structure SmallOk (h : Heap) (a b : ℕ) (free : List ℕ) : Prop where
  bucket : b < bigBin
  magic : h.word (a + 12) = binMagic
  size : h.size a = b
  stack : Chain (h.stackNext a) none free
  nodup : free.Nodup
  cells : ∀ c ∈ free, IsCell a b c

structure BigOk (h : Heap) (a s : ℕ) (owner : Option ℕ) : Prop where
  pages : (s + 48) % 4096 = 0
  magic : h.word (a + 12) = binMagic
  size : h.size a = s
  free : owner = none → h.word (a + 4) = a + 48 ∧ h.word (a + 48) = 0
  owned : ∀ p, owner = some p → h.word (a + 4) = 0 ∧ (p = a + 48 ∨ p = a + 4096)

def BlockOk (h : Heap) (a : ℕ) : Block → Prop
  | .small b free => SmallOk h a b free
  | .big s owner => BigOk h a s owner

/-- The blocks tile the heap. -/
structure Layout (start stop : ℕ) (M : ℕ → Option Block) : Prop where
  aligned : ∀ a k, M a = some k → a % 4096 = 0
  start_le : ∀ a k, M a = some k → start ≤ a
  le_stop : ∀ a k, M a = some k → a + k.len ≤ stop
  apart : ∀ a k a' k', M a = some k → M a' = some k' → a < a' → a + k.len ≤ a'
  cover : ∀ x, start ≤ x → x < stop → ∃ a k, M a = some k ∧ a ≤ x ∧ x < a + k.len

def BinOk (h : Heap) (M : ℕ → Option Block) (b : ℕ) : Prop :=
  ∃ l, Chain (h.binNext b) none l ∧ l.Nodup ∧ ∀ a, a ∈ l ↔ ∃ c t, M a = some (.small b (c :: t))

def SkipOk (h : Heap) (M : ℕ → Option Block) : Prop :=
  ∃ xs, SkipList.Rep skipMaxLevel h.forward h.size h.level xs ∧
    ∀ a, a ∈ xs.map Prod.fst ↔ ∃ s, M a = some (.big s none)

structure Inv (start : ℕ) (h : Heap) (M : ℕ → Option Block) : Prop where
  start_pos : 0 < start
  start_le : start ≤ h.heapEnd
  stop_aligned : h.heapEnd % 4096 = 0
  stop_lt : h.heapEnd < kernelHeapEnd
  layout : Layout start h.heapEnd M
  ok : ∀ a k, M a = some k → BlockOk h a k
  bins : ∀ b < bigBin, BinOk h M b
  skip : SkipOk h M
  newest : h.newestBig = 0 ∨ ∃ s o, M h.newestBig = some (.big s o)

/-! ### Words -/

@[simp] theorem ptr_zero : ptr 0 = none := rfl

theorem ptr_of_ne {p : ℕ} (h : p ≠ 0) : ptr p = some p := if_neg h

@[simp] theorem ptr_eq_none {p : ℕ} : ptr p = none ↔ p = 0 := by
  unfold ptr
  split_ifs <;> simp_all

theorem ptr_eq_some {p q : ℕ} : ptr p = some q ↔ p = q ∧ q ≠ 0 := by
  unfold ptr
  split_ifs with h
  · exact ⟨fun e => by simp at e, fun e => absurd (e.1 ▸ h) e.2⟩
  · exact ⟨fun e => ⟨Option.some.inj e, Option.some.inj e ▸ h⟩, fun e => congrArg some e.1⟩

variable (h : Heap)

@[simp] theorem setWord_heapEnd (a v : ℕ) : (h.setWord a v).heapEnd = h.heapEnd := rfl
@[simp] theorem setWord_binHead (a v : ℕ) : (h.setWord a v).binHead = h.binHead := rfl
@[simp] theorem setWord_bigForward (a v : ℕ) : (h.setWord a v).bigForward = h.bigForward := rfl
@[simp] theorem setWord_level (a v : ℕ) : (h.setWord a v).level = h.level := rfl
@[simp] theorem setWord_newestBig (a v : ℕ) : (h.setWord a v).newestBig = h.newestBig := rfl

theorem word_lt (a : ℕ) : h.word a < 2 ^ 32 := Buf.u32_lt _ _

theorem word_setWord_self {h : Heap} {a v : ℕ} (hv : v < 2 ^ 32) : (h.setWord a v).word a = v :=
  (Buf.u32_setU32 ..).trans (Nat.mod_eq_of_lt hv)

theorem word_setWord_ne {h : Heap} {a b v : ℕ} (hab : b + 4 ≤ a ∨ a + 4 ≤ b) :
    (h.setWord a v).word b = h.word b := Buf.u32_setU32_ne hab

def SameOff (S : ℕ → Prop) (h h' : Heap) : Prop := ∀ x, ¬ S x → h'.mem x = h.mem x

namespace SameOff

variable {S T : ℕ → Prop} {h h' h'' : Heap}

theorem refl (S : ℕ → Prop) (h : Heap) : SameOff S h h := fun _ _ => rfl

theorem trans (h1 : SameOff S h h') (h2 : SameOff S h' h'') : SameOff S h h'' :=
  fun x hx => (h2 x hx).trans (h1 x hx)

theorem mono (h1 : SameOff S h h') (hST : ∀ x, S x → T x) : SameOff T h h' :=
  fun x hx => h1 x fun hs => hx (hST x hs)

theorem setWord {a v : ℕ} (h1 : SameOff S h h') (ha : ∀ x, a ≤ x → x < a + 4 → S x) :
    SameOff S h (h'.setWord a v) := by
  intro x hx
  have hout : x < a ∨ a + 4 ≤ x := by
    by_contra hc
    exact hx (ha x (by omega) (by omega))
  exact (Buf.blit_out hout).trans (h1 x hx)

theorem word {a : ℕ} (h1 : SameOff S h h') (ha : ∀ x, a ≤ x → x < a + 4 → ¬ S x) : h'.word a = h.word a :=
  Buf.u32_congr fun x hx hx' => h1 x (ha x hx hx')

end SameOff

/-! ### Cells -/

theorem cellCount_mul_le (b : ℕ) : cellCount b * 2 ^ (b + 2) ≤ 4080 := by
  rw [cellCount, Nat.shiftRight_eq_div_pow]
  exact Nat.div_mul_le_self _ _

theorem IsCell.bounds {a b c : ℕ} (h : IsCell a b c) : a + 16 ≤ c ∧ c + 2 ^ (b + 2) ≤ a + 4096 := by
  obtain ⟨i, hi, rfl⟩ := h
  have h1 : (i + 1) * 2 ^ (b + 2) ≤ cellCount b * 2 ^ (b + 2) := Nat.mul_le_mul_right _ hi
  have h2 := cellCount_mul_le b
  rw [Nat.add_mul] at h1
  omega

theorem four_le_cell (b : ℕ) : 4 ≤ 2 ^ (b + 2) := by
  rw [pow_add]
  have : 0 < 2 ^ b := by positivity
  omega

theorem IsCell.apart {a b c c' : ℕ} (h : IsCell a b c) (h' : IsCell a b c') (hne : c ≠ c') :
    c + 2 ^ (b + 2) ≤ c' ∨ c' + 2 ^ (b + 2) ≤ c := by
  obtain ⟨i, -, rfl⟩ := h
  obtain ⟨j, -, rfl⟩ := h'
  rcases Nat.lt_trichotomy i j with hij | rfl | hij
  · have := Nat.mul_le_mul_right (2 ^ (b + 2)) hij
    rw [Nat.succ_mul] at this
    omega
  · exact absurd rfl hne
  · have := Nat.mul_le_mul_right (2 ^ (b + 2)) hij
    rw [Nat.succ_mul] at this
    omega

/-! ### Blocks under changes elsewhere -/

/-- The addresses of the words that `BlockOk` reads. -/
def Block.Owns (a : ℕ) : Block → ℕ → Prop
  | small _ free, x => x = a + 4 ∨ x = a + 8 ∨ x = a + 12 ∨ x ∈ free
  | big _ owner, x => x = a + 4 ∨ x = a + 8 ∨ x = a + 12 ∨ (owner = none ∧ x = a + 48)

theorem BlockOk.congr {h h' : Heap} {a : ℕ} {k : Block} (hk : BlockOk h a k)
    (hw : ∀ x, k.Owns a x → h'.word x = h.word x) : BlockOk h' a k := by
  cases k with
  | small b free =>
    obtain ⟨h1, h2, h3, h4, h5, h6⟩ := hk
    refine ⟨h1, (hw _ (by simp [Block.Owns])).trans h2, (hw _ (by simp [Block.Owns])).trans h3, ?_, h5, h6⟩
    refine h4.congr ?_ fun c hc => ?_
    · exact congrArg ptr (hw _ (by simp [Block.Owns]))
    · exact congrArg ptr (hw _ (by simp [Block.Owns, hc]))
  | big s owner =>
    obtain ⟨h1, h2, h3, h4, h5⟩ := hk
    refine ⟨h1, (hw _ (by simp [Block.Owns])).trans h2, (hw _ (by simp [Block.Owns])).trans h3,
      fun ho => ?_, fun p hp => ?_⟩
    · rw [hw _ (by simp [Block.Owns]), hw _ (by simp [Block.Owns, ho])]
      exact h4 ho
    · rw [hw _ (by simp [Block.Owns])]
      exact h5 p hp

theorem BlockOk.owns_bounds {h : Heap} {a x : ℕ} {k : Block} (hk : BlockOk h a k) (hx : k.Owns a x) :
    a ≤ x ∧ x + 4 ≤ a + 4096 := by
  cases k with
  | small b free =>
    rcases hx with rfl | rfl | rfl | hx
    · omega
    · omega
    · omega
    · have := (hk.cells x hx).bounds
      have := four_le_cell b
      omega
  | big s owner => rcases hx with rfl | rfl | rfl | ⟨-, rfl⟩ <;> omega

theorem BigOk.size_ge {h : Heap} {a s : ℕ} {o : Option ℕ} (hk : BigOk h a s o) : 4048 ≤ s := by
  have := hk.pages
  omega

theorem BlockOk.page_le {h : Heap} {a : ℕ} {k : Block} (hk : BlockOk h a k) : 4096 ≤ k.len := by
  cases k with
  | small b free => exact le_rfl
  | big s owner =>
    have : 4048 ≤ s := BigOk.size_ge hk
    simp only [Block.len]
    omega

/-- The allocator's own bytes lie in the first page of a block. -/
theorem BlockOk.meta_bounds {h : Heap} {a x : ℕ} {k : Block} (hk : BlockOk h a k) (hx : k.MetaAt a x) :
    a ≤ x ∧ x < a + 4096 := by
  cases k with
  | small b free =>
    rcases hx with hx | ⟨c, hc, hx⟩
    · omega
    · have := (hk.cells c hc).bounds
      have := four_le_cell b
      omega
  | big s owner => rcases hx with hx | hx <;> omega

/-! ### The map of blocks -/

namespace Layout

variable {start stop : ℕ} {M : ℕ → Option Block}

theorem update {a : ℕ} {k k' : Block} (L : Layout start stop M) (hk : M a = some k) (hlen : k'.len = k.len) :
    Layout start stop (Function.update M a (some k')) := by
  have hold : ∀ b j, Function.update M a (some k') b = some j → ∃ j', M b = some j' ∧ j'.len = j.len := by
    intro b j hj
    by_cases hb : b = a
    · subst hb
      rw [Function.update_self, Option.some.injEq] at hj
      exact ⟨k, hk, hj ▸ hlen.symm⟩
    · rw [Function.update_of_ne hb] at hj
      exact ⟨j, hj, rfl⟩
  refine ⟨fun b j hj => ?_, fun b j hj => ?_, fun b j hj => ?_, fun b j b' i hj hi hlt => ?_, fun x h1 h2 =>
    ?_⟩
  · obtain ⟨j', hj', -⟩ := hold b j hj
    exact L.aligned b j' hj'
  · obtain ⟨j', hj', -⟩ := hold b j hj
    exact L.start_le b j' hj'
  · obtain ⟨j', hj', he⟩ := hold b j hj
    exact he ▸ L.le_stop b j' hj'
  · obtain ⟨j', hj', he⟩ := hold b j hj
    obtain ⟨i', hi', -⟩ := hold b' i hi
    exact he ▸ L.apart b j' b' i' hj' hi' hlt
  · obtain ⟨b, j, hb, h3, h4⟩ := L.cover x h1 h2
    by_cases hba : b = a
    · subst hba
      obtain rfl : k = j := Option.some.inj (hk.symm.trans hb)
      exact ⟨b, k', Function.update_self .., h3, hlen.symm ▸ h4⟩
    · exact ⟨b, j, by rw [Function.update_of_ne hba, hb], h3, h4⟩

theorem grow {k : Block} (L : Layout start stop M) (hs : stop % 4096 = 0) (h0 : start ≤ stop)
    (hk : 0 < k.len) :
    Layout start (stop + k.len) (Function.update M stop (some k)) := by
  have hcase : ∀ b j, Function.update M stop (some k) b = some j → (b = stop ∧ j = k) ∨
    (b ≠ stop ∧ M b = some j) := by
    intro b j hj
    by_cases hb : b = stop
    · subst hb
      rw [Function.update_self, Option.some.injEq] at hj
      exact .inl ⟨rfl, hj.symm⟩
    · rw [Function.update_of_ne hb] at hj
      exact .inr ⟨hb, hj⟩
  refine ⟨fun b j hj => ?_, fun b j hj => ?_, fun b j hj => ?_, fun b j b' i hj hi hlt => ?_, fun x h1 h2 =>
    ?_⟩
  · rcases hcase b j hj with ⟨rfl, -⟩ | ⟨-, hb⟩
    · exact hs
    · exact L.aligned b j hb
  · rcases hcase b j hj with ⟨rfl, -⟩ | ⟨-, hb⟩
    · exact h0
    · exact L.start_le b j hb
  · rcases hcase b j hj with ⟨rfl, rfl⟩ | ⟨-, hb⟩
    · exact le_rfl
    · exact (L.le_stop b j hb).trans (Nat.le_add_right ..)
  · rcases hcase b j hj with ⟨rfl, rfl⟩ | ⟨-, hb⟩
    · rcases hcase b' i hi with ⟨rfl, -⟩ | ⟨-, hb'⟩
      · omega
      · have := L.le_stop b' i hb'
        omega
    · rcases hcase b' i hi with ⟨rfl, -⟩ | ⟨-, hb'⟩
      · exact L.le_stop b j hb
      · exact L.apart b j b' i hb hb' hlt
  · rcases Nat.lt_or_ge x stop with hx | hx
    · obtain ⟨b, j, hb, h3, h4⟩ := L.cover x h1 hx
      by_cases hbs : b = stop
      · omega
      · exact ⟨b, j, by rw [Function.update_of_ne hbs, hb], h3, h4⟩
    · exact ⟨stop, k, Function.update_self .., hx, h2⟩

theorem pages_apart {a a' : ℕ} {k k' : Block} (L : Layout start stop M) (hk : M a = some k)
    (hk' : M a' = some k') (hne : a ≠ a') : a + 4096 ≤ a' ∨ a' + 4096 ≤ a := by
  have := L.aligned a k hk
  have := L.aligned a' k' hk'
  omega

end Layout

end ChiffOS.Heap
