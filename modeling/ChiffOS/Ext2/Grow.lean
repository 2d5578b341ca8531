import ChiffOS.Ext2.Steps

/-! How a regular file gets its next block: pointer blocks are linked in, the pointer is stored, and
the record is written with the new size. None of this shows in the bytes of a file. -/

namespace ChiffOS.Ext2

open Buf

variable {S I : ℕ → Prop} {d d' : Disk} {n m : ℕ}

def Holds (d : Disk) (n : ℕ) (ino : Buf) : Prop := SameOn ino (d.record n) 0 d.inodeSize

/-- A step that grows the file `n` without changing the bytes of any file. -/
structure Grows (S I : ℕ → Prop) (n : ℕ) (d d' : Disk) : Prop where
  wf : WellFormed S I d'
  shape : d.SameShape d'.toMem
  others : ∀ m, I m → m ≠ n → SameFile d d' m
  bytes : ∀ pos, d'.fileByte n pos = d.fileByte n pos
  length : d'.fileLength n = d.fileLength n
  regular : Regular (d'.record n)

theorem Grows.refl (hw : WellFormed S I d) (hreg : Regular (d.record n)) : Grows S I n d d :=
  ⟨hw, .refl _, fun m _ _ => .refl d m, fun _ => rfl, rfl, hreg⟩

theorem Grows.trans {d₁ d₂ d₃ : Disk} (h : Grows S I n d₁ d₂) (h' : Grows S I n d₂ d₃) :
    Grows S I n d₁ d₃ where
  wf := h'.wf
  shape := h.shape.trans h'.shape
  others m hm hne := (h.others m hm hne).trans h.shape (h'.others m hm hne)
  bytes pos := (h'.bytes pos).trans (h.bytes pos)
  length := h'.length.trans h.length
  regular := h'.regular

/-! ### Fields of an inode -/

section Fields

variable {ino : Buf} {i v : ℕ}

theorem inodeBlock_setInodeBlock (hv : v < 2 ^ 32) (j : ℕ) :
    inodeBlock (setInodeBlock ino i v) j = if j = i then v else inodeBlock ino j := by
  unfold inodeBlock setInodeBlock
  split_ifs with h
  · rw [h, u32_setU32, Nat.mod_eq_of_lt hv]
  · exact u32_setU32_ne (by omega)

theorem inodeBlock_setInodeBlocks (j : ℕ) : inodeBlock (setInodeBlocks ino v) j = inodeBlock ino j :=
  u32_setU32_ne (by omega)

theorem inodeBlock_setInodeLength (j : ℕ) : inodeBlock (setInodeLength ino v) j = inodeBlock ino j :=
  u32_setU32_ne (by omega)

@[simp] theorem inodeBlocks_setInodeBlock : inodeBlocks (setInodeBlock ino i v) = inodeBlocks ino :=
  u32_setU32_ne (by omega)

@[simp] theorem inodeLength_setInodeBlock : inodeLength (setInodeBlock ino i v) = inodeLength ino :=
  u32_setU32_ne (by omega)

@[simp] theorem inodeMode_setInodeBlock : inodeMode (setInodeBlock ino i v) = inodeMode ino :=
  u16_setU32_ne (by omega)

@[simp] theorem inodeLength_setInodeBlocks : inodeLength (setInodeBlocks ino v) = inodeLength ino :=
  u32_setU32_ne (by omega)

@[simp] theorem inodeMode_setInodeBlocks : inodeMode (setInodeBlocks ino v) = inodeMode ino :=
  u16_setU32_ne (by omega)

@[simp] theorem inodeBlocks_setInodeLength : inodeBlocks (setInodeLength ino v) = inodeBlocks ino :=
  u32_setU32_ne (by omega)

@[simp] theorem inodeMode_setInodeLength : inodeMode (setInodeLength ino v) = inodeMode ino :=
  u16_setU32_ne (by omega)

end Fields

/-- The bytes of a file whose blocks stay where they are and hold what they held. -/
theorem fileByte_congr (hbs : d'.blockSize = d.blockSize) (hb : d'.fileBlocks n = d.fileBlocks n)
    (hleaf : ∀ l < d.fileBlocks n, d'.leafBlock n l = d.leafBlock n l)
    (hdata : ∀ l < d.fileBlocks n, d'.blocks (d.leafBlock n l) = d.blocks (d.leafBlock n l)) (pos : ℕ) :
    d'.fileByte n pos = d.fileByte n pos := by
  unfold Disk.fileByte
  rw [hbs, hb]
  split_ifs with h
  · rw [hleaf _ h, hdata _ h]
  · rfl

section Take

variable {g j : ℕ} (hw : WellFormed S I d) (hS : ∀ b, S b → d.Usable b) (ht : Took .blocks g j d d')
include hw hS ht

theorem Took.grows (hn : I n) (hreg : Regular (d.record n)) : Grows S I n d d' where
  wf := hw.adds (Took.adds hw hS ht)
  shape := ht.shape
  others m hm _ := (Took.untouched hw hS ht hm).sameFile ht.shape hw.geometry.inode_ge
  bytes := ((Took.untouched hw hS ht hn).sameFile ht.shape hw.geometry.inode_ge).bytes
  length := by simp only [Disk.fileLength, Took.record_eq hw hS ht hn]
  regular := by rw [Took.record_eq hw hS ht hn]; exact hreg

end Take

/-! ### Linking a pointer block -/

section Link

variable {k₁ : Node} {b : ℕ}

theorem linked_self (hw : WellFormed S I d) (hS : ∀ b, S b → d.Usable b) (hn : I n)
    (hreg : Regular (d.record n))
    (hp : d'.pointersPerBlock = d.pointersPerBlock) (hb : d'.fileBlocks n = d.fileBlocks n)
    (hlink : Node.Linked d.pointersPerBlock (d.record n) (d'.record n) d.blocks d'.blocks k₁ b)
    (hleaf : ∀ l < d.fileBlocks n, d'.leafBlock n l = d.leafBlock n l) (hres : Reserved S I d b) :
    ∀ s : Ref, (∃ l, s = .data n l) ∨ (∃ k, s = .node n k) → s.Live I d' →
      (s.Live I d ∧ s.block d' = s.block d) ∨ (some (.node n k₁) = some s ∧ Reserved S I d (s.block d')) := by
  rintro s (⟨l, rfl⟩ | ⟨k, rfl⟩) hs
  · have hl : l < d.fileBlocks n := hb ▸ hs.2
    exact .inl ⟨⟨hn, hl⟩, hleaf l hl⟩
  · have hold : ∀ hk : k.Set (d.record n) d.blocks d.pointersPerBlock,
        (Ref.node n k).Live I d ∧ (Ref.node n k).block d' = (Ref.node n k).block d := fun hk =>
      ⟨⟨hn, (hw.nodeLive_iff hS hn hreg).mpr hk⟩, (hlink.old k hk).1⟩
    rcases hs.2 with ⟨l, hl, hk⟩ | ⟨-, hk⟩
    · rw [hb] at hl
      rw [hp] at hk
      exact .inl (hold (hw.needed_set hS hn hl hk))
    · rw [hp] at hk
      rcases hlink.only k hk with hk' | rfl
      · exact .inl (hold hk')
      · refine .inr ⟨rfl, ?_⟩
        change Reserved S I d (k.block (d'.record n) d'.blocks)
        rw [hlink.block]
        exact hres

theorem leafBlock_of_holders (hw : WellFormed S I d) (hS : ∀ b, S b → d.Usable b) (hn : I n)
    (hp : d'.pointersPerBlock = d.pointersPerBlock)
    (hi : ∀ i < 12, i < d.fileBlocks n → inodeBlock (d'.record n) i = inodeBlock (d.record n) i)
    (hk : ∀ l < d.fileBlocks n, ∀ k i, place d.pointersPerBlock l = some (.entry k i) →
      k.Set (d.record n) d.blocks d.pointersPerBlock →
      (d'.blocks (k.block (d'.record n) d'.blocks)).u32 (4 * i) = (d.blocks (d.nodeBlock n k)).u32 (4 * i))
    {l : ℕ} (hl : l < d.fileBlocks n) : d'.leafBlock n l = d.leafBlock n l := by
  unfold Disk.leafBlock
  rw [hp]
  refine leaf_of_place (fun i h => ?_) fun k i h => ?_
  · have := place_inode h
    exact hi i (by omega) (by omega)
  · exact hk l hl k i h (hw.needed_set hS hn hl (mem_spine_of_place h))

theorem link_inode (hw : WellFormed S I d) (hS : ∀ b, S b → d.Usable b) (hn : I n)
    (hreg : Regular (d.record n))
    {ino : Buf} (hold : Holds d n ino) {i : ℕ} (ht : k₁ = .single ∧ i = 12 ∨ k₁ = .double ∧ i = 13)
    (h0 : inodeBlock ino i = 0) (hres : Reserved S I d b) (hzero : ∀ x < d.blockSize, d.blocks b x = 0) :
    let d' := d.putRecord n (setInodeBlock ino i b)
    Grows S I n d d' ∧ Adds S I d d' (some (.node n k₁)) ∧ d'.fileBlocks n = d.fileBlocks n ∧
      Node.Linked d.pointersPerBlock (d.record n) (d'.record n) d.blocks d'.blocks k₁ b := by
  intro d'
  have hz := hw.geometry.inode_ge
  have hi : i = 12 ∨ i = 13 := by rcases ht with h | h <;> simp [h.2]
  have hrec : SameOn (d'.record n) (setInodeBlock ino i b) 0 d.inodeSize := putRecord_self d n _
  have hptr0 := inodeBlock_congr hold hz
  have hb32 : b < 2 ^ 32 := (hS b hres.mem).lt (by have := hw.geometry.sizeOk.le; omega)
  have hptr : ∀ j < 15, inodeBlock (d'.record n) j = if j = i then b else inodeBlock (d.record n) j := by
    intro j hj
    rw [inodeBlock_congr hrec hz j hj, inodeBlock_setInodeBlock hb32, hptr0 j hj]
  have hblocks : d'.fileBlocks n = d.fileBlocks n := by
    have h1 : inodeBlocks (d'.record n) = inodeBlocks (d.record n) := by
      rw [inodeBlocks_congr hrec hz, inodeBlocks_setInodeBlock, inodeBlocks_congr hold hz]
    simp only [Disk.fileBlocks, Mem.blocksOf, h1]
    rfl
  have hkeep : ∀ r : Ref, r.Live I d → (∀ x, r ≠ .table x) → d'.blocks (r.block d) = d.blocks (r.block d) :=
    fun r hr hx => putRecord_keeps hw hn hr hx
  have hlive := fun k => hw.nodeLive_iff hS hn hreg (k := k)
  -- the new pointer block is not the block of the record
  have hbr : d'.blocks b = d.blocks b :=
    d.setBlock_ne _ fun he => hres.unused (d.recordRef n) (hw.recordRef_live hn) he.symm
  have hlink : Node.Linked d.pointersPerBlock (d.record n) (d'.record n) d.blocks d'.blocks k₁ b := by
    refine Node.linked_inode ht ?_ (hS b hres.mem).1 hptr (fun a ha => ?_) fun c hc => ?_
    · rw [← hptr0 i (by omega)]; exact h0
    · exact hkeep (.node n a) ⟨hn, (hlive a).mpr ha⟩ (by simp)
    · have h4 := hw.geometry.four_dvd
      rw [hbr]
      simp only [u32, u16]
      rw [hzero _ (by omega), hzero _ (by omega), hzero _ (by omega), hzero _ (by omega)]
      rfl
  have hleaf : ∀ l < d.fileBlocks n, d'.leafBlock n l = d.leafBlock n l := by
    intro l hl
    have hp : d'.pointersPerBlock = d.pointersPerBlock := rfl
    refine leafBlock_of_holders hw hS hn hp (fun j hj _ => ?_) (fun l hl k x hx hk => ?_) hl
    · rw [hptr j (by omega), if_neg (by omega)]
    · rw [(hlink.old k hk).1]
      exact congrArg (fun c : Buf => c.u32 (4 * x)) (hkeep (.node n k) ⟨hn, (hlive k).mpr hk⟩ (by simp))
  have hother : ∀ m, I m → m ≠ n → Untouched d d' m := fun m hm hne => putRecord_untouched hw hn hm hne
  have hadds : Adds S I d d' (some (.node n k₁)) :=
    hw.setBlock_adds (hw.recordRef_live hn) (by simp [Mem.recordRef]) hother
      (linked_self hw hS hn hreg rfl hblocks hlink hleaf hres)
  refine ⟨⟨hw.adds hadds, .refl _, fun m hm hne => (hother m hm hne).sameFile (.refl _) hz, ?_, ?_, ?_⟩,
    hadds, hblocks,
    hlink⟩
  · exact fileByte_congr rfl hblocks hleaf fun l hl => hkeep (.data n l) ⟨hn, hl⟩ (by simp)
  · simp only [Disk.fileLength]
    rw [inodeLength_congr hrec hz, inodeLength_setInodeBlock, inodeLength_congr hold hz]
  · rw [regular_congr hrec hz]
    simp only [Regular, inodeMode_setInodeBlock]
    exact (regular_congr hold hz).mpr hreg

theorem u32_entry {b : Buf} {c v : ℕ} (hv : v < 2 ^ 32) (i : ℕ) :
    (b.setU32 (4 * c) v).u32 (4 * i) = if i = c then v else b.u32 (4 * i) := by
  split_ifs with h
  · rw [h, u32_setU32, Nat.mod_eq_of_lt hv]
  · exact u32_setU32_ne (by omega)

/-- Writing a pointer block of the file `n` leaves the other files and all records alone. -/
theorem WellFormed.setNode_untouched (hw : WellFormed S I d) (hn : I n) {k : Node} (hk : d.NodeLive n k)
    {buf : Buf}
    (hm : I m) (hne : m ≠ n) : Untouched d (d.setBlock (d.nodeBlock n k) buf) m := by
  have hr : (Ref.node n k).Live I d := ⟨hn, hk⟩
  refine hw.setBlock_untouched hr hm ?_ (by simp [Ne.symm hne]) (by simp)
  have hrec : (d.setBlock (d.nodeBlock n k) buf).record m = d.record m :=
    hw.setBlock_record hr hm (by simp [Mem.recordRef])
  exact fun i h1 h2 => congrFun hrec i

theorem link_child (hw : WellFormed S I d) (hS : ∀ b, S b → d.Usable b) (hn : I n)
    (hreg : Regular (d.record n))
    {c : ℕ} (hc : c < d.pointersPerBlock) (hd : d.nodeBlock n .double ≠ 0)
    (h0 : d.nodeBlock n (.child c) = 0) (hres : Reserved S I d b) :
    let d' := d.setBlock (d.nodeBlock n .double) ((d.blocks (d.nodeBlock n .double)).setU32 (4 * c) b)
    Grows S I n d d' ∧ Adds S I d d' (some (.node n (.child c))) ∧ d'.record n = d.record n ∧
      Node.Linked d.pointersPerBlock (d.record n) (d'.record n) d.blocks d'.blocks (.child c) b := by
  intro d'
  have hz := hw.geometry.inode_ge
  have hlive := fun k => hw.nodeLive_iff hS hn hreg (k := k)
  have hdl : (Ref.node n .double).Live I d := ⟨hn, (hlive .double).mpr hd⟩
  have hb32 : b < 2 ^ 32 := (hS b hres.mem).lt (by have := hw.geometry.sizeOk.le; omega)
  have hrec : d'.record n = d.record n := hw.setBlock_record hdl hn (by simp [Mem.recordRef])
  have hkeep : ∀ r : Ref, r.Live I d → r ≠ .node n .double → d'.blocks (r.block d) = d.blocks (r.block d) :=
    fun r hr hx => d.setBlock_ne _ fun he => hx (hw.inj r _ hr hdl he)
  have hlink : Node.Linked d.pointersPerBlock (d.record n) (d'.record n) d.blocks d'.blocks (.child c) b := by
    refine Node.linked_child hc hd h0 (hS b hres.mem).1 (fun j _ => by rw [hrec]) (fun a ha hne => ?_)
      fun c' _ => ?_
    · exact hkeep (.node n a) ⟨hn, (hlive a).mpr ha⟩ (by simpa using hne)
    · have : d'.blocks (inodeBlock (d.record n) 13) = (d.blocks (inodeBlock (d.record n) 13)).setU32 (4 * c)
        b :=
        d.setBlock_self _ _
      rw [this, u32_entry hb32]
  have hblocks : d'.fileBlocks n = d.fileBlocks n := by
    simp only [Disk.fileBlocks, hrec]
    rfl
  have hleaf : ∀ l < d.fileBlocks n, d'.leafBlock n l = d.leafBlock n l := by
    intro l hl
    have hp : d'.pointersPerBlock = d.pointersPerBlock := rfl
    refine leafBlock_of_holders hw hS hn hp (fun j _ _ => by rw [hrec]) (fun l hl k x hx hk => ?_) hl
    -- no data pointer is kept in the double indirect block
    have hne : k ≠ .double := ne_double_of_place hx
    rw [(hlink.old k hk).1]
    exact congrArg (fun c : Buf => c.u32 (4 * x))
      (hkeep (.node n k) ⟨hn, (hlive k).mpr hk⟩ (by simpa using hne))
  have hother : ∀ m, I m → m ≠ n → Untouched d d' m := fun m hm hne => hw.setNode_untouched hn hdl.2 hm hne
  have hadds : Adds S I d d' (some (.node n (.child c))) :=
    hw.setBlock_adds hdl (by simp) hother (linked_self hw hS hn hreg rfl hblocks hlink hleaf hres)
  refine ⟨⟨hw.adds hadds, .refl _, fun m hm hne => (hother m hm hne).sameFile (.refl _) hz, ?_, ?_, ?_⟩,
    hadds, hrec,
    hlink⟩
  · exact fileByte_congr rfl hblocks hleaf fun l hl => hkeep (.data n l) ⟨hn, hl⟩ (by simp)
  · simp only [Disk.fileLength, hrec]
  · rw [hrec]; exact hreg

theorem store_entry (hw : WellFormed S I d) (hS : ∀ b, S b → d.Usable b) (hn : I n)
    (hreg : Regular (d.record n))
    {k : Node} {i l : ℕ} (hpl : place d.pointersPerBlock l = some (.entry k i)) (hl : d.fileBlocks n ≤ l)
    (hk : k.Set (d.record n) d.blocks d.pointersPerBlock) (hb : b < 2 ^ 32) :
    let d' := d.setBlock (d.nodeBlock n k) ((d.blocks (d.nodeBlock n k)).setU32 (4 * i) b)
    Grows S I n d d' ∧ Adds S I d d' none ∧ d'.record n = d.record n ∧
      (∀ a : Node, a.Set (d'.record n) d'.blocks d.pointersPerBlock ↔
        a.Set (d.record n) d.blocks d.pointersPerBlock) ∧
      leaf (d'.record n) d'.blocks d.pointersPerBlock l = b := by
  intro d'
  have hz := hw.geometry.inode_ge
  have hlive := fun k => hw.nodeLive_iff hS hn hreg (k := k)
  have hkl : (Ref.node n k).Live I d := ⟨hn, (hlive k).mpr hk⟩
  have hrec : d'.record n = d.record n := hw.setBlock_record hkl hn (by simp [Mem.recordRef])
  have hkeep : ∀ r : Ref, r.Live I d → r ≠ .node n k → d'.blocks (r.block d) = d.blocks (r.block d) :=
    fun r hr hx => d.setBlock_ne _ fun he => hx (hw.inj r _ hr hkl he)
  -- no other pointer block hangs below one that holds data pointers
  have habove : ∀ a c : Node, c ∈ a.above → c ≠ k := not_above_of_place hpl
  have hblock : ∀ a : Node, a.Set (d.record n) d.blocks d.pointersPerBlock →
      a.block (d'.record n) d'.blocks = a.block (d.record n) d.blocks := by
    intro a ha
    refine Node.block_congr (fun _ _ _ => by rw [hrec]) fun c hc => ?_
    exact hkeep (.node n c) ⟨hn, (hlive c).mpr (ha.above hc)⟩ (by simpa using habove a c hc)
  have hset : ∀ a : Node, a.Set (d'.record n) d'.blocks d.pointersPerBlock ↔
      a.Set (d.record n) d.blocks d.pointersPerBlock := by
    refine fun a => ⟨fun ha => ?_, fun ha => ha.of_block hblock⟩
    refine Node.set_congr (fun _ _ _ => by rw [hrec]) (fun c hc hcs => ?_) ha
    exact hkeep (.node n c) ⟨hn, (hlive c).mpr hcs⟩ (by simpa using habove a c hc)
  have hself : d'.blocks (d.nodeBlock n k) = (d.blocks (d.nodeBlock n k)).setU32 (4 * i) b :=
    d.setBlock_self _ _
  have hblocks : d'.fileBlocks n = d.fileBlocks n := by
    simp only [Disk.fileBlocks, hrec]
    rfl
  have hleaf : ∀ l < d.fileBlocks n, d'.leafBlock n l = d.leafBlock n l := by
    intro l' hl'
    have hp : d'.pointersPerBlock = d.pointersPerBlock := rfl
    refine leafBlock_of_holders hw hS hn hp (fun j _ _ => by rw [hrec]) (fun l' hl' a x hx ha => ?_) hl'
    rw [hblock a ha]
    by_cases hak : a = k
    · subst hak
      have hxi : x ≠ i := fun he => by
        subst he
        have := place_inj hx hpl
        omega
      change (d'.blocks (d.nodeBlock n a)).u32 (4 * x) = _
      rw [hself, u32_entry hb, if_neg hxi]
    · exact congrArg (fun c : Buf => c.u32 (4 * x))
        (hkeep (.node n a) ⟨hn, (hlive a).mpr ha⟩ (by simpa using hak))
  have hother : ∀ m, I m → m ≠ n → Untouched d d' m := fun m hm hne => hw.setNode_untouched hn hkl.2 hm hne
  have hadds : Adds S I d d' none := by
    refine hw.setBlock_adds hkl (by simp) hother ?_
    rintro s (⟨l', rfl⟩ | ⟨a, rfl⟩) hs
    · have hl' : l' < d.fileBlocks n := hblocks ▸ hs.2
      exact .inl ⟨⟨hn, hl'⟩, hleaf l' hl'⟩
    · have ha : a.Set (d.record n) d.blocks d.pointersPerBlock := by
        rcases hs.2 with ⟨l', hl', ha⟩ | ⟨-, ha⟩
        · exact hw.needed_set hS hn (hblocks ▸ hl') ha
        · exact (hset a).mp ha
      exact .inl ⟨⟨hn, (hlive a).mpr ha⟩, hblock a ha⟩
  refine ⟨⟨hw.adds hadds, .refl _, fun m hm hne => (hother m hm hne).sameFile (.refl _) hz, ?_, ?_, ?_⟩,
    hadds, hrec,
    hset, ?_⟩
  · exact fileByte_congr rfl hblocks hleaf fun l hl => hkeep (.data n l) ⟨hn, hl⟩ (by simp)
  · simp only [Disk.fileLength, hrec]
  · rw [hrec]; exact hreg
  · simp only [leaf, hpl, Option.map_some, Option.getD_some, Slot.value]
    rw [hblock k hk]
    change (d'.blocks (d.nodeBlock n k)).u32 (4 * i) = b
    rw [hself, u32_entry hb, if_pos rfl]

end Link

/-! ### The record with one block more -/

section Attach

def withBlock (ino : Buf) (l b : ℕ) : Buf := if l < 12 then setInodeBlock ino l b else ino

variable {ino : Buf} {b l t : ℕ}

theorem attach_block (hw : WellFormed S I d) (hS : ∀ b, S b → d.Usable b) (hn : I n)
    (hreg : Regular (d.record n))
    (hold : Holds d n ino) (hl : d.fileBlocks n = l) (hres : Reserved S I d b)
    (hzero : ∀ x < d.blockSize, d.blocks b x = 0)
    (hspine : ∀ k ∈ spine d.pointersPerBlock l, k.Set (d.record n) d.blocks d.pointersPerBlock)
    (hleaf : 12 ≤ l → leaf (d.record n) d.blocks d.pointersPerBlock l = b)
    (ht : t < 2 ^ 32) (htl : t / (d.blockSize / 512) = l + 1) :
    let d' := d.putRecord n (setInodeBlocks (withBlock ino l b) t)
    Grows S I n d d' ∧ Adds S I d d' (some (.data n l)) ∧ d'.fileBlocks n = l + 1 ∧
      (∀ a : Node, a.Set (d'.record n) d'.blocks d.pointersPerBlock ↔
        a.Set (d.record n) d.blocks d.pointersPerBlock) ∧ d'.leafBlock n l = b := by
  intro d'
  have hz := hw.geometry.inode_ge
  have hrec : SameOn (d'.record n) (setInodeBlocks (withBlock ino l b) t) 0 d.inodeSize :=
    putRecord_self d n _
  have hb32 : b < 2 ^ 32 := (hS b hres.mem).lt (by have := hw.geometry.sizeOk.le; omega)
  have hlive := fun k => hw.nodeLive_iff hS hn hreg (k := k)
  have hkeep : ∀ r : Ref, r.Live I d → (∀ x, r ≠ .table x) → d'.blocks (r.block d) = d.blocks (r.block d) :=
    fun r hr hx => putRecord_keeps hw hn hr hx
  have hbr : d'.blocks b = d.blocks b :=
    d.setBlock_ne _ fun he => hres.unused (d.recordRef n) (hw.recordRef_live hn) he.symm
  -- the inode's pointers stay, but for the direct pointer to the new block
  have hptr : ∀ j < 15, inodeBlock (d'.record n) j = if j = l ∧
    l < 12 then b else inodeBlock (d.record n) j := by
    intro j hj
    rw [inodeBlock_congr hrec hz j hj, inodeBlock_setInodeBlocks, ← inodeBlock_congr hold hz j hj]
    unfold withBlock
    split_ifs with h1 h2 h2
    · rw [inodeBlock_setInodeBlock hb32, if_pos h2.1]
    · rw [inodeBlock_setInodeBlock hb32, if_neg fun h => h2 ⟨h, h1⟩]
    · exact absurd h2.2 h1
    · rfl
  have hptr12 : ∀ j < 15, 12 ≤ j → inodeBlock (d'.record n) j = inodeBlock (d.record n) j :=
    fun j hj h12 => by rw [hptr j hj, if_neg (by omega)]
  have hblock : ∀ a : Node, a.Set (d.record n) d.blocks d.pointersPerBlock →
      a.block (d'.record n) d'.blocks = a.block (d.record n) d.blocks := fun a ha =>
    Node.block_congr hptr12 fun c hc => hkeep (.node n c) ⟨hn, (hlive c).mpr (ha.above hc)⟩ (by simp)
  have hset : ∀ a : Node, a.Set (d'.record n) d'.blocks d.pointersPerBlock ↔
      a.Set (d.record n) d.blocks d.pointersPerBlock := fun a =>
    ⟨fun ha => Node.set_congr hptr12 (fun c _ hcs => hkeep (.node n c) ⟨hn, (hlive c).mpr hcs⟩ (by simp)) ha,
      fun ha => ha.of_block hblock⟩
  have hentry : ∀ k i, k.Set (d.record n) d.blocks d.pointersPerBlock →
      (d'.blocks (k.block (d'.record n) d'.blocks)).u32 (4 * i) =
        (d.blocks (d.nodeBlock n k)).u32 (4 * i) := by
    intro k i hk
    rw [hblock k hk]
    exact congrArg (fun c : Buf => c.u32 (4 * i)) (hkeep (.node n k) ⟨hn, (hlive k).mpr hk⟩ (by simp))
  have hblocks : d'.fileBlocks n = l + 1 := by
    have h1 : inodeBlocks (d'.record n) = t := by
      rw [inodeBlocks_congr hrec hz, inodeBlocks, setInodeBlocks, u32_setU32, Nat.mod_eq_of_lt ht]
    simp only [Disk.fileBlocks, Mem.blocksOf, h1]
    exact htl
  have hold' : ∀ l' < l, d'.leafBlock n l' = d.leafBlock n l' := by
    intro l' hl'
    have hp : d'.pointersPerBlock = d.pointersPerBlock := rfl
    refine leafBlock_of_holders hw hS hn hp (fun j hj hjl => ?_) (fun l' _ k x _ hk => hentry k x hk)
      (hl ▸ hl')
    rw [hptr j (by omega), if_neg (by omega)]
  have hnew : d'.leafBlock n l = b := by
    change leaf (d'.record n) d'.blocks d.pointersPerBlock l = b
    by_cases h12 : l < 12
    · simp only [leaf, place, h12, if_true, Option.map_some, Option.getD_some, Slot.value]
      rw [hptr l (by omega), if_pos ⟨rfl, h12⟩]
    · rw [← hleaf (by omega)]
      refine leaf_of_place (fun i h => ?_) fun k i h => hentry k i (hspine k (mem_spine_of_place h))
      have := place_inode h
      omega
  have hother : ∀ m, I m → m ≠ n → Untouched d d' m := fun m hm hne => putRecord_untouched hw hn hm hne
  have hadds : Adds S I d d' (some (.data n l)) := by
    refine hw.setBlock_adds (hw.recordRef_live hn) (by simp [Mem.recordRef]) hother ?_
    rintro s (⟨l', rfl⟩ | ⟨a, rfl⟩) hs
    · have hl' : l' < l + 1 := hblocks ▸ hs.2
      rcases Nat.lt_succ_iff_lt_or_eq.mp hl' with h | rfl
      · exact .inl ⟨⟨hn, hl ▸ h⟩, hold' l' h⟩
      · refine .inr ⟨rfl, ?_⟩
        change Reserved S I d (d'.leafBlock n l')
        rw [hnew]
        exact hres
    · have ha : a.Set (d.record n) d.blocks d.pointersPerBlock := by
        rcases hs.2 with ⟨l', hl', ha⟩ | ⟨-, ha⟩
        · have hl'' : l' < l + 1 := hblocks ▸ hl'
          rcases Nat.lt_succ_iff_lt_or_eq.mp hl'' with h | rfl
          · exact hw.needed_set hS hn (hl ▸ h) ha
          · exact hspine a ha
        · exact (hset a).mp ha
      exact .inl ⟨⟨hn, (hlive a).mpr ha⟩, hblock a ha⟩
  refine ⟨⟨hw.adds hadds, .refl _, fun m hm hne => (hother m hm hne).sameFile (.refl _) hz, fun pos => ?_, ?_,
    ?_⟩,
    hadds, hblocks, hset, hnew⟩
  · -- the new block holds zeros, as the file had at its end
    have hbs : d'.blockSize = d.blockSize := rfl
    unfold Disk.fileByte
    rw [hblocks, hl, hbs]
    rcases Nat.lt_trichotomy (pos / d.blockSize) l with h | h | h
    · rw [if_pos (by omega), if_pos h, hold' _ h]
      exact congrFun (hkeep (.data n (pos / d.blockSize)) ⟨hn, hl ▸ h⟩ (by simp)) _
    · rw [if_pos (by omega), if_neg (by omega), h, hnew, hbr]
      exact hzero _ (Nat.mod_lt _ (by have := hw.geometry.sizeOk.le; omega))
    · rw [if_neg (by omega), if_neg (by omega)]
  · have h1 : inodeLength (withBlock ino l b) = inodeLength ino := by unfold withBlock; split_ifs <;> simp
    simp only [Disk.fileLength]
    rw [inodeLength_congr hrec hz, inodeLength_setInodeBlocks, h1, inodeLength_congr hold hz]
  · have h1 : inodeMode (withBlock ino l b) = inodeMode ino := by unfold withBlock; split_ifs <;> simp
    rw [regular_congr hrec hz]
    simp only [Regular, inodeMode_setInodeBlocks, h1]
    exact (regular_congr hold hz).mpr hreg

end Attach

end ChiffOS.Ext2
