import ChiffOS.Ext2.Grow

/-! `set_block_number`, `allocate_inode_block` and the loop of `inode_write_block`: the file gets the
blocks it lacks, as long as the volume has them. -/

namespace ChiffOS.Ext2

open Buf

variable {S I : ℕ → Prop} {d d' : Disk} {n L : ℕ}

def Disk.missing (d : Disk) (n L : ℕ) : Finset Node :=
  (nodesTo d.pointersPerBlock L).filter fun k => ¬ k.Set (d.record n) d.blocks d.pointersPerBlock

def Disk.need (d : Disk) (n L : ℕ) : ℕ := (L + 1 - d.fileBlocks n) + (d.missing n L).card

def Disk.freeBlocks (d : Disk) : ℕ := Pool.blocks.free d.toMem

/-- A step that links in pointer blocks: it takes as many blocks as it adds, and leaves alone what is
reserved. -/
structure Extends (S I : ℕ → Prop) (n L : ℕ) (d d' : Disk) : Prop extends Grows S I n d d' where
  blocks : d'.fileBlocks n = d.fileBlocks n
  nodes : ∀ k : Node, k.Set (d.record n) d.blocks d.pointersPerBlock →
    k.Set (d'.record n) d'.blocks d.pointersPerBlock
  reserved : ∀ c, Reserved S I d c → Reserved S I d' c ∧ d'.blocks c = d.blocks c
  account : (d'.missing n L).card + d.freeBlocks = (d.missing n L).card + d'.freeBlocks

theorem Extends.refl (hw : WellFormed S I d) (hreg : Regular (d.record n)) : Extends S I n L d d :=
  { Grows.refl hw hreg with
    blocks := rfl, nodes := fun _ h => h, reserved := fun _ h => ⟨h, rfl⟩, account := rfl }

theorem Extends.trans {d₁ d₂ d₃ : Disk} (h : Extends S I n L d₁ d₂) (h' : Extends S I n L d₂ d₃) :
    Extends S I n L d₁ d₃ :=
  { h.toGrows.trans h'.toGrows with
    blocks := h'.blocks.trans h.blocks
    nodes := fun k hk => by
      have := h'.nodes k (h.shape.pointers ▸ h.nodes k hk)
      rwa [h.shape.pointers] at this
    reserved := fun c hc =>
      ⟨(h'.reserved c (h.reserved c hc).1).1, (h'.reserved c (h.reserved c hc).1).2.trans (h.reserved c hc).2⟩
    account := by have := h.account; have := h'.account; omega }

theorem missing_congr (hp : d'.pointersPerBlock = d.pointersPerBlock)
    (h : ∀ k : Node, k.Set (d'.record n) d'.blocks d.pointersPerBlock ↔
      k.Set (d.record n) d.blocks d.pointersPerBlock) :
    d'.missing n L = d.missing n L := by
  unfold Disk.missing
  rw [hp]
  exact Finset.filter_congr fun k _ => not_congr (h k)

theorem missing_linked {k₁ : Node} {b : ℕ} (hp : d'.pointersPerBlock = d.pointersPerBlock)
    (h : Node.Linked d.pointersPerBlock (d.record n) (d'.record n) d.blocks d'.blocks k₁ b)
    (h0 : ¬ k₁.Set (d.record n) d.blocks d.pointersPerBlock) (hk : k₁ ∈ nodesTo d.pointersPerBlock L) :
    (d'.missing n L).card + 1 = (d.missing n L).card := by
  have hmem : k₁ ∈ d.missing n L := Finset.mem_filter.mpr ⟨hk, h0⟩
  have he : d'.missing n L = (d.missing n L).erase k₁ := by
    ext k
    unfold Disk.missing
    rw [hp]
    simp only [Finset.mem_filter, Finset.mem_erase]
    constructor
    · rintro ⟨h1, h2⟩
      exact ⟨fun he => h2 (he ▸ h.set), h1, fun h3 => h2 (h.old k h3).2⟩
    · rintro ⟨h1, h2, h3⟩
      exact ⟨h2, fun h4 => (h.only k h4).elim h3 h1⟩
  rw [he, Finset.card_erase_of_mem hmem]
  have := Finset.card_pos.mpr ⟨k₁, hmem⟩
  omega

/-! ### One block taken -/

/-- A block is reserved, filled with zeros; the rest is as it was. -/
structure Obtains (S I : ℕ → Prop) (n L : ℕ) (d : Disk) (b : ℕ) (d' : Disk) :
    Prop extends Grows S I n d d' where
  record : d'.record n = d.record n
  set_iff : ∀ k : Node, k.Set (d'.record n) d'.blocks d.pointersPerBlock ↔
    k.Set (d.record n) d.blocks d.pointersPerBlock
  node : ∀ k : Node, k.Set (d.record n) d.blocks d.pointersPerBlock →
    d'.nodeBlock n k = d.nodeBlock n k ∧ d'.blocks (d.nodeBlock n k) = d.blocks (d.nodeBlock n k)
  reserved : ∀ c, Reserved S I d c → Reserved S I d' c ∧ d'.blocks c = d.blocks c
  block : Reserved S I d' b
  fresh : ¬ Reserved S I d b
  zero : ∀ x < d.blockSize, d'.blocks b x = 0
  free : d'.freeBlocks + 1 = d.freeBlocks

theorem Obtains.missing {b : ℕ} (h : Obtains S I n L d b d') : d'.missing n L = d.missing n L :=
  missing_congr h.shape.pointers h.set_iff

theorem Obtains.blocks {b : ℕ} (h : Obtains S I n L d b d') : d'.fileBlocks n = d.fileBlocks n := by
  simp only [Disk.fileBlocks, Mem.blocksOf, h.record, h.shape.blockSize]

theorem allocateBlock_obtains (hw : WellFormed S I d) (hS : ∀ b, S b → d.Usable b) (hn : I n)
    (hreg : Regular (d.record n)) (hfree : 0 < d.freeBlocks) :
    Does allocateBlock d (d.bgdBlockSpan + 3) fun b d' => b ≠ 0 ∧ Obtains S I n L d b d' := by
  have hpos : ∃ g < d.blockGroupCount, 0 < Pool.blocks.count d.toMem g := by
    by_contra hc
    push Not at hc
    have : d.freeBlocks = 0 := Finset.sum_eq_zero fun g hg => Nat.le_zero.mp (hc g (Finset.mem_range.mp hg))
    omega
  refine (allocateBlock_spec (hw.allocOk hS) hw.counted hpos).mono le_rfl ?_
  rintro b d' ⟨g, j, rfl, ht⟩
  have hrec := Took.record_eq hw hS ht hn
  have hlive := fun k => hw.nodeLive_iff hS hn hreg (k := k)
  have hkeep : ∀ k : Node, k.Set (d.record n) d.blocks d.pointersPerBlock →
      d'.blocks (k.block (d.record n) d.blocks) = d.blocks (k.block (d.record n) d.blocks) :=
    fun k hk => (Took.untouched hw hS ht hn).nodes k ((hlive k).mpr hk)
  have hblock : ∀ k : Node, k.Set (d.record n) d.blocks d.pointersPerBlock →
      k.block (d'.record n) d'.blocks = k.block (d.record n) d.blocks :=
    fun k hk => Node.block_congr (fun _ _ _ => by rw [hrec]) fun a ha => hkeep a (hk.above ha)
  have hf : d.FreeBlock (d.blockAt g j) := ⟨g, j, ht.clear, rfl⟩
  refine ⟨(hS _ (hw.free_mem _ hf)).1, { Took.grows hw hS ht hn hreg with
    record := hrec
    set_iff := fun k => ⟨Node.set_congr (fun _ _ _ => by rw [hrec]) fun a _ ha => hkeep a ha, fun hk =>
      hk.of_block hblock⟩
    node := fun k hk => ⟨hblock k hk, hkeep k hk⟩
    reserved := fun c hc => Took.reserved_old hw hS ht hc
    block := Took.reserved hw hS ht
    fresh := fun hr => hr.taken hf
    zero := ht.zero rfl
    free := ?_ }⟩
  rw [Disk.freeBlocks, ht.mem]
  exact Pool.take_free_self ht.clear.1 ht.pos

/-! ### Pointer blocks -/

/-- What the driver needs to know of a volume to work on the regular file `n`. -/
structure Ready (S I : ℕ → Prop) (n : ℕ) (d : Disk) : Prop where
  wf : WellFormed S I d
  usable : ∀ b, S b → d.Usable b
  inode : I n
  found : ¬ d.inodesPerGroup ∣ n
  regular : Regular (d.record n)

theorem Grows.ready (h : Grows S I n d d') (hr : Ready S I n d) : Ready S I n d' where
  wf := h.wf
  usable b hb := (h.shape.usable b).mpr (hr.usable b hb)
  inode := hr.inode
  found := h.shape.inodesPerGroup ▸ hr.found
  regular := h.regular

theorem Obtains.link {d₁ d₂ : Disk} {b : ℕ} {k₁ : Node} (h : Obtains S I n L d b d₁) (hg : Grows S I n d₁ d₂)
    (ha : Adds S I d₁ d₂ (some (.node n k₁))) (hb : d₂.fileBlocks n = d₁.fileBlocks n) (hm : d₂.toMem =
      d₁.toMem)
    (hrest : ∀ c, Reserved S I d₁ c → d₂.blocks c = d₁.blocks c)
    (hlink : Node.Linked d₁.pointersPerBlock (d₁.record n) (d₂.record n) d₁.blocks d₂.blocks k₁ b)
    (h0 : ¬ k₁.Set (d₁.record n) d₁.blocks d₁.pointersPerBlock) (hk : k₁ ∈ nodesTo d.pointersPerBlock L) :
    Extends S I n L d d₂ ∧ k₁.Set (d₂.record n) d₂.blocks d.pointersPerBlock := by
  have hp := h.shape.pointers
  refine ⟨{ h.toGrows.trans hg with
    blocks := hb.trans h.blocks
    nodes := fun k hk => hp ▸ (hlink.old k (hp ▸ (h.set_iff k).mpr hk)).2
    reserved := fun c hc => ?_
    account := ?_ }, hp ▸ hlink.set⟩
  · obtain ⟨h1, h2⟩ := h.reserved c hc
    refine ⟨ha.reserved h1 fun r hr he => h.fresh ?_, (hrest c h1).trans h2⟩
    obtain rfl := Option.some.inj hr
    rwa [← hlink.block, show k₁.block (d₂.record n) d₂.blocks = c from he]
  · have h1 := missing_linked (congrArg Mem.pointersPerBlock hm) hlink h0 (hp ▸ hk)
    have h2 : d₂.freeBlocks = d₁.freeBlocks := congrArg Pool.blocks.free hm
    have h3 := h.free
    rw [h.missing] at h1
    omega

section Nodes

variable (hr : Ready S I n d)
include hr

theorem ensureSlot_spec {ino : Buf} (hold : Holds d n ino) {k₁ : Node} {i : ℕ}
    (ht : k₁ = .single ∧ i = 12 ∨ k₁ = .double ∧ i = 13) (hk : k₁ ∈ nodesTo d.pointersPerBlock L)
    (hfree : (d.missing n L).card ≤ d.freeBlocks) :
    Does (ensureSlot ino n i) d (d.bgdBlockSpan + 5) fun r d' => ∃ ino', r = some ino' ∧ Holds d' n ino' ∧
      Extends S I n L d d' ∧ k₁.Set (d'.record n) d'.blocks d.pointersPerBlock := by
  have hz := hr.wf.geometry.inode_ge
  have hval : k₁.Set (d.record n) d.blocks d.pointersPerBlock ↔ inodeBlock ino i ≠ 0 := by
    rcases ht with ⟨rfl, rfl⟩ | ⟨rfl, rfl⟩ <;>
    simp only [Node.Set, Node.block, inodeBlock_congr hold hz 12 (by norm_num),
      inodeBlock_congr hold hz 13 (by norm_num)]
  unfold ensureSlot
  split_ifs with h0
  · exact .pure ⟨ino, rfl, hold, .refl hr.wf hr.regular, hval.mpr h0⟩
  have hmiss : 0 < (d.missing n L).card :=
    Finset.card_pos.mpr ⟨k₁, Finset.mem_filter.mpr ⟨hk, fun h => h0 (hval.mp h)⟩⟩
  refine ((allocateBlock_obtains hr.wf hr.usable hr.inode hr.regular (L := L) (by omega)).bind (m := 2)
    ?_).mono
    (by omega) fun _ _ hq => hq
  rintro b d₁ ⟨hb0, hob⟩
  rw [if_neg hb0]
  have hr₁ := hob.ready hr
  have hold₁ : Holds d₁ n ino := by
    unfold Holds
    rw [hob.record, hob.shape.inodeSize]
    exact hold
  refine ((hr₁.wf.writeInode_spec hr₁.usable hr.inode hr₁.found _).bind (m := 0) ?_).mono (by omega)
    fun _ _ hq => hq
  rintro - d₂ rfl
  obtain ⟨hg, ha, hbl, hlink⟩ := link_inode hr₁.wf hr₁.usable hr.inode hr₁.regular hold₁ ht (not_ne_iff.mp h0)
    hob.block
    (by rw [hob.shape.blockSize]; exact hob.zero)
  have hns : ¬ k₁.Set (d₁.record n) d₁.blocks d₁.pointersPerBlock := by
    rw [hob.shape.pointers, hob.set_iff, hval]
    exact h0
  obtain ⟨he, hs⟩ := hob.link hg ha hbl rfl
    (fun c hc => d₁.setBlock_ne _ fun he => hc.unused _ (hr₁.wf.recordRef_live hr.inode) he.symm) hlink hns hk
  exact .pure ⟨_, rfl, (putRecord_self d₁ n _).symm, he, hs⟩

theorem ensureEntry_spec {tmp : Buf} {c : ℕ} (hd : Node.double.Set (d.record n) d.blocks d.pointersPerBlock)
    (htmp : SameOn tmp (d.blocks (d.nodeBlock n .double)) 0 d.blockSize) (hc : c < d.pointersPerBlock)
    (hk : .child c ∈ nodesTo d.pointersPerBlock L) (hfree : (d.missing n L).card ≤ d.freeBlocks) :
    Does (ensureEntry tmp (d.nodeBlock n .double) c) d (d.bgdBlockSpan + 4) fun r d' => ∃ tmp', r =
      some tmp' ∧
      tmp'.u32 (4 * c) = d'.nodeBlock n (.child c) ∧ d'.record n = d.record n ∧
      Extends S I n L d d' ∧ (Node.child c).Set (d'.record n) d'.blocks d.pointersPerBlock := by
  have h4 := hr.wf.geometry.four_dvd
  have hentry : tmp.u32 (4 * c) = d.nodeBlock n (.child c) := u32_congr (htmp.mono (by omega) (by omega))
  unfold ensureEntry
  split_ifs with h0
  · exact .pure ⟨tmp, rfl, hentry, rfl, .refl hr.wf hr.regular, hc, hd, fun h => h0 (hentry.trans h)⟩
  have h0' : d.nodeBlock n (.child c) = 0 := hentry ▸ not_ne_iff.mp h0
  have hmiss : 0 < (d.missing n L).card :=
    Finset.card_pos.mpr ⟨.child c, Finset.mem_filter.mpr ⟨hk, fun h => h.2.2 h0'⟩⟩
  refine ((allocateBlock_obtains hr.wf hr.usable hr.inode hr.regular (L := L) (by omega)).bind (m := 1)
    ?_).mono
    (by omega) fun _ _ hq => hq
  rintro b d₁ ⟨hb0, hob⟩
  rw [if_neg hb0]
  have hr₁ := hob.ready hr
  have hns : ¬ (Node.child c).Set (d₁.record n) d₁.blocks d₁.pointersPerBlock := by
    rw [hob.shape.pointers, hob.set_iff]
    exact fun h => h.2.2 h0'
  obtain ⟨hnb, hcont⟩ := hob.node _ hd
  have hd₁ : Node.double.Set (d₁.record n) d₁.blocks d₁.pointersPerBlock := by
    rw [hob.shape.pointers, hob.set_iff]; exact hd
  have hlive : (Ref.node n .double).Live I d₁ :=
    ⟨hr.inode, (hr₁.wf.nodeLive_iff hr₁.usable hr.inode hr₁.regular).mpr hd₁⟩
  have hzero : d₁.nodeBlock n (.child c) = 0 := by
    change (d₁.blocks (d₁.nodeBlock n .double)).u32 (4 * c) = 0
    rw [hnb, hcont]
    exact h0'
  obtain ⟨hg, ha, hrec, hlink⟩ := link_child hr₁.wf hr₁.usable hr.inode hr₁.regular (hob.shape.pointers ▸ hc)
    hd₁ hzero
    hob.block
  have hput : d₁.put (d₁.nodeBlock n .double) (tmp.setU32 (4 * c) b) =
      d₁.setBlock (d₁.nodeBlock n .double) ((d₁.blocks (d₁.nodeBlock n .double)).setU32 (4 * c) b) := by
    have hbs := hob.shape.blockSize
    refine put_entry ?_ (by omega)
    rw [hnb, hcont, hbs]
    exact htmp
  rw [← hnb]
  refine does_writeBlock (hr₁.usable _ (hr₁.wf.mem _ hlive)) ?_
  rw [hput]
  obtain ⟨he, hs⟩ := hob.link hg ha (by simp only [Disk.fileBlocks, hrec]; rfl) rfl
    (fun c' hc' => d₁.setBlock_ne _ fun he => hc'.unused _ hlive he.symm) hlink hns hk
  have hb32 : b < 2 ^ 32 := (hr₁.usable b hob.block.mem).lt (by have := hr₁.wf.geometry.sizeOk.le; omega)
  refine .pure ⟨_, rfl, ?_, hrec.trans hob.record, he, hs⟩
  rw [u32_setU32, Nat.mod_eq_of_lt hb32]
  exact hlink.block.symm

theorem storeEntry_spec {tmp : Buf} {k : Node} {i l b : ℕ}
    (hpl : place d.pointersPerBlock l = some (.entry k i))
    (hl : d.fileBlocks n ≤ l) (hk : k.Set (d.record n) d.blocks d.pointersPerBlock) (hb : b < 2 ^ 32) :
    Does (storeEntry tmp (d.nodeBlock n k) i b) d 2 fun _ d' => d'.record n = d.record n ∧
      Extends S I n L d d' ∧
      leaf (d'.record n) d'.blocks d.pointersPerBlock l = b := by
  have hlive : (Ref.node n k).Live I d :=
    ⟨hr.inode, (hr.wf.nodeLive_iff hr.usable hr.inode hr.regular).mpr hk⟩
  have hu : d.Usable (d.nodeBlock n k) := hr.usable _ (hr.wf.mem _ hlive)
  have hi := place_index hpl
  have h4 := hr.wf.geometry.four_dvd
  refine does_readBlock hu (does_writeBlock hu ?_)
  rw [put_entry (blit_sameOn _ _ _) (by omega)]
  obtain ⟨hg, ha, hrec, hset, hleaf⟩ := store_entry hr.wf hr.usable hr.inode hr.regular hpl hl hk hb
  refine .pure ⟨hrec, { hg with
    blocks := by simp only [Disk.fileBlocks, hrec]; rfl
    nodes := fun a ha => (hset a).mpr ha
    reserved := fun c hc => ⟨ha.reserved hc (by simp), d.setBlock_ne _ fun he => hc.unused _ hlive he.symm⟩
    account := ?_ }, hleaf⟩
  rw [missing_congr (congrArg Mem.pointersPerBlock (d.setBlock_mem _ _)) hset]
  rfl

theorem setBlockNumber_spec {ino : Buf} (hold : Holds d n ino) {l b : ℕ} (hl : d.fileBlocks n ≤ l)
    (hlL : l ≤ L)
    (hmap : l < 12 + d.pointersPerBlock + d.pointersPerBlock * d.pointersPerBlock) (hb : b < 2 ^ 32)
    (hfree : (d.missing n L).card ≤ d.freeBlocks) :
    Does (setBlockNumber ino n l b) d (2 * d.bgdBlockSpan + 12) fun r d' =>
      (∃ base, r.2 = withBlock base l b ∧ Holds d' n base) ∧ Extends S I n L d d' ∧
      (∀ k ∈ spine d.pointersPerBlock l, k.Set (d'.record n) d'.blocks d.pointersPerBlock) ∧
      (12 ≤ l → leaf (d'.record n) d'.blocks d.pointersPerBlock l = b) := by
  have hgeo := hr.wf.geometry
  refine does_this ?_
  rw [mapPath_eq hgeo.pointers_pos hgeo.map_lt]
  set p := d.pointersPerBlock with hp
  by_cases h1 : l < 12
  · simp only [h1, if_true]
    refine .pure ⟨⟨ino, by simp [withBlock, h1], hold⟩, .refl hr.wf hr.regular, ?_, by omega⟩
    simp [spine, place, h1, Slot.spine]
  simp only [h1, if_false]
  by_cases h2 : l < 12 + p
  · have hpl : place p l = some (.entry .single (l - 12)) := by simp [place, h1, h2]
    have hk := mem_nodesTo (mem_spine_of_place hpl) hlL
    simp only [h2, if_true]
    refine ((ensureSlot_spec hr hold (.inl ⟨rfl, rfl⟩) hk hfree).bind (m := 2) ?_).mono (by omega)
      fun _ _ hq => hq
    rintro _ d₁ ⟨ino₁, rfl, hold₁, he₁, hs₁⟩
    have hr₁ := he₁.ready hr
    have hp₁ : d₁.pointersPerBlock = p := he₁.shape.pointers
    refine does_malloc fun tmp => ?_
    rw [show inodeBlock ino₁ 12 = d₁.nodeBlock n .single from
      inodeBlock_congr hold₁ hr₁.wf.geometry.inode_ge 12 (by norm_num)]
    refine (storeEntry_spec hr₁ (L := L) (hp₁ ▸ hpl) (he₁.blocks ▸ hl) (hp₁ ▸ hs₁) hb).bind (m := 0) ?_
    rintro - d₂ ⟨hrec, he₂, hleaf⟩
    rw [hp₁] at hleaf
    refine .pure ⟨⟨ino₁, by simp [withBlock, h1], ?_⟩, he₁.trans he₂, ?_, fun _ => hleaf⟩
    · unfold Holds
      rw [hrec, he₂.shape.inodeSize]
      exact hold₁
    · intro k hk
      obtain rfl : k = .single := by simpa [spine, hpl, Slot.spine, Node.above] using hk
      exact hp₁ ▸ he₂.nodes _ (hp₁ ▸ hs₁)
  simp only [h2, if_false, hmap, if_true]
  have hpl : place p l = some (.entry (.child ((l - 12 - p) / p)) ((l - 12 - p) % p)) := by
    simp [place, h1, h2, hmap]
  have hspine : spine p l =
    [.double, .child ((l - 12 - p) / p)] := by simp [spine, hpl, Slot.spine, Node.above]
  have hc : (l - 12 - p) / p < p := Nat.div_lt_of_lt_mul (by omega)
  set c := (l - 12 - p) / p
  set i := (l - 12 - p) % p
  have hkd : .double ∈ nodesTo p L := mem_nodesTo (l := l) (by simp [hspine]) hlL
  have hkc : .child c ∈ nodesTo p L := mem_nodesTo (l := l) (by simp [hspine]) hlL
  refine ((ensureSlot_spec hr hold (.inr ⟨rfl, rfl⟩) hkd hfree).bind (m := d.bgdBlockSpan + 7) ?_).mono
    (by omega)
    fun _ _ hq => hq
  rintro _ d₁ ⟨ino₁, rfl, hold₁, he₁, hs₁⟩
  have hr₁ := he₁.ready hr
  have hp₁ : d₁.pointersPerBlock = p := he₁.shape.pointers
  refine does_malloc fun tmp => ?_
  rw [show inodeBlock ino₁ 13 = d₁.nodeBlock n .double from
    inodeBlock_congr hold₁ hr₁.wf.geometry.inode_ge 13 (by norm_num)]
  have hlive : (Ref.node n .double).Live I d₁ :=
    ⟨hr.inode, (hr₁.wf.nodeLive_iff hr₁.usable hr.inode hr₁.regular).mpr hs₁⟩
  refine does_readBlock (hr₁.usable _ (hr₁.wf.mem _ hlive)) ?_
  refine ((ensureEntry_spec hr₁ (L := L) hs₁ (blit_sameOn _ _ _)
    (hp₁ ▸ hc) (hp₁ ▸ hkc) (by have := he₁.account; omega)).bind (m := 2) ?_).mono
    (by rw [he₁.shape.span]) fun _ _ hq => hq
  rintro _ d₂ ⟨tmp', rfl, htmp, hrec₂, he₂, hs₂⟩
  have hr₂ := he₂.ready hr₁
  have hp₂ : d₂.pointersPerBlock = p := he₂.shape.pointers.trans hp₁
  dsimp only
  rw [htmp]
  refine (storeEntry_spec hr₂ (L := L) (l := l) (hp₂ ▸ hpl) (by rw [he₂.blocks, he₁.blocks]; exact hl)
    (by rw [hp₂, ← hp₁]; exact hs₂) hb).bind (m := 0) ?_
  rintro - d₃ ⟨hrec₃, he₃, hleaf⟩
  rw [hp₂] at hleaf
  have he := (he₁.trans he₂).trans he₃
  refine .pure ⟨⟨ino₁, by simp [withBlock, h1], ?_⟩, he, ?_, fun _ => hleaf⟩
  · unfold Holds
    rw [hrec₃, hrec₂, he₃.shape.inodeSize, he₂.shape.inodeSize]
    exact hold₁
  · intro k hk
    have hk : k = .double ∨ k = .child c := by simpa [hspine] using hk
    have h3 := hp₂ ▸ he₃.nodes
    have h2 := hp₁ ▸ he₂.nodes
    rcases hk with rfl | rfl
    · exact h3 _ (h2 _ hs₁)
    · exact h3 _ (hp₁ ▸ hs₂)

end Nodes

/-! ### File blocks -/

/-- A step on the file `n` that takes as many blocks as it gives the file. -/
structure Changes (S I : ℕ → Prop) (n L : ℕ) (d d' : Disk) : Prop where
  wf : WellFormed S I d'
  shape : d.SameShape d'.toMem
  others : ∀ m, I m → m ≠ n → SameFile d d' m
  regular : Regular (d'.record n)
  account : d'.need n L + d.freeBlocks = d.need n L + d'.freeBlocks

theorem Changes.trans {d₁ d₂ d₃ : Disk} (h : Changes S I n L d₁ d₂) (h' : Changes S I n L d₂ d₃) :
    Changes S I n L d₁ d₃ where
  wf := h'.wf
  shape := h.shape.trans h'.shape
  others m hm hne := (h.others m hm hne).trans h.shape (h'.others m hm hne)
  regular := h'.regular
  account := by have := h.account; have := h'.account; omega

theorem Grows.changes (h : Grows S I n d d') (ha : d'.need n L + d.freeBlocks = d.need n L + d'.freeBlocks) :
    Changes S I n L d d' := ⟨h.wf, h.shape, h.others, h.regular, ha⟩

theorem Changes.ready (h : Changes S I n L d d') (hr : Ready S I n d) : Ready S I n d' where
  wf := h.wf
  usable b hb := (h.shape.usable b).mpr (hr.usable b hb)
  inode := hr.inode
  found := h.shape.inodesPerGroup ▸ hr.found
  regular := h.regular

/-- The file can have all blocks up to `L`: the block map reaches them, their bytes have 32-bit
offsets, and the volume has the blocks. -/
structure Fits (n L : ℕ) (d : Disk) : Prop where
  map : L < 12 + d.pointersPerBlock + d.pointersPerBlock * d.pointersPerBlock
  bytes : L * d.blockSize < 2 ^ 32
  room : d.need n L ≤ d.freeBlocks

theorem Changes.fits (h : Changes S I n L d d') (hf : Fits n L d) : Fits n L d' where
  map := h.shape.pointers ▸ hf.map
  bytes := h.shape.blockSize ▸ hf.bytes
  room := by have := h.account; have := hf.room; omega

/-- The number of 512-byte units up to a file block. -/
theorem Mem.Geometry.units {m : Mem} (h : m.Geometry) {l : ℕ} (hl : l * m.blockSize < 2 ^ 32) :
    (l + 1) * (m.blockSize / 512) < 2 ^ 32 ∧ 0 < m.blockSize / 512 := by
  obtain ⟨k, hk, hs⟩ := h.size
  have h1 := h.sizeOk.le
  have h2 := h.size_le
  have h3 : m.blockSize / 512 * 512 = m.blockSize := by
    rw [hs, Nat.shiftLeft_eq]
    omega
  refine ⟨?_, by omega⟩
  rw [← h3, ← Nat.mul_assoc] at hl
  rw [Nat.add_mul]
  omega

theorem allocateInodeBlock_spec (hr : Ready S I n d) {ino : Buf} (hold : Holds d n ino) (hf : Fits n L d)
    (hlL : d.fileBlocks n ≤ L) :
    Does (allocateInodeBlock ino n (d.fileBlocks n)) d (3 * d.bgdBlockSpan + 17) fun r d' => Holds d' n r.2 ∧
      Grows S I n d d' ∧ d'.fileBlocks n = d.fileBlocks n + 1 ∧
      d'.need n L + d.freeBlocks = d.need n L + d'.freeBlocks := by
  set l := d.fileBlocks n with hl
  have hroom : (d.missing n L).card + 1 ≤ d.freeBlocks := by
    have := hf.room
    unfold Disk.need at this
    omega
  refine does_this (((allocateBlock_obtains hr.wf hr.usable hr.inode hr.regular (L := L) (by omega)).bind
    (m := 2 * d.bgdBlockSpan + 14) ?_).mono (by omega) fun _ _ hq => hq)
  rintro b d₁ ⟨hb0, hob⟩
  dsimp only
  rw [if_neg hb0]
  have hr₁ := hob.ready hr
  have hold₁ : Holds d₁ n ino := by
    unfold Holds
    rw [hob.record, hob.shape.inodeSize]
    exact hold
  have hb32 : b < 2 ^ 32 := (hr₁.usable b hob.block.mem).lt (by have := hr₁.wf.geometry.sizeOk.le; omega)
  refine ((setBlockNumber_spec hr₁ (L := L) (l := l) hold₁ hob.blocks.le hlL
    (by rw [hob.shape.pointers]; have := hf.map; omega) hb32
    (by rw [hob.missing]; have := hob.free; omega)).bind (m := 2) ?_).mono (by rw [hob.shape.span])
      fun _ _ hq => hq
  rintro ⟨_, _⟩ d₂ ⟨⟨base, rfl, hold₂⟩, he, hspine, hleaf⟩
  dsimp only
  have hr₂ := he.ready hr₁
  have hbs : d₂.blockSize = d.blockSize := he.shape.blockSize.trans hob.shape.blockSize
  have hl₂ : d₂.fileBlocks n = l := he.blocks.trans hob.blocks
  obtain ⟨hunit, hupos⟩ := hr.wf.geometry.units (lt_of_le_of_lt (Nat.mul_le_mul_right _ hlL) hf.bytes)
  -- the size in units grows, so the source writes the new one
  have hlt : inodeBlocks (withBlock base l b) < (l + 1) * (d.blockSize / 512) := by
    have h1 : inodeBlocks (withBlock base l b) = inodeBlocks (d₂.record n) := by
      unfold withBlock
      split_ifs <;> simp [inodeBlocks_congr hold₂ hr₂.wf.geometry.inode_ge]
    have h2 : inodeBlocks (d₂.record n) / (d.blockSize / 512) = l := by
      rw [← hl₂, ← hbs]
      rfl
    rw [h1]
    exact (Nat.div_lt_iff_lt_mul hupos).mp (by omega)
  rw [Nat.mod_eq_of_lt hunit, if_pos hlt]
  refine (hr₂.wf.writeInode_spec hr₂.usable hr.inode hr₂.found _).bind (m := 0) ?_
  rintro - d₃ rfl
  obtain ⟨hc, hcb⟩ := he.reserved b hob.block
  have hp₂ : d₂.pointersPerBlock = d₁.pointersPerBlock := he.shape.pointers
  obtain ⟨hg, -, hfb, hset, -⟩ := attach_block hr₂.wf hr₂.usable hr.inode hr₂.regular hold₂ hl₂ hc
    (by rw [hcb, hbs]; exact hob.zero) (hp₂ ▸ hspine) (hp₂ ▸ hleaf) hunit
      (by rw [hbs]; exact Nat.mul_div_cancel _ hupos)
  refine .pure ⟨(putRecord_self d₂ n _).symm, (hob.toGrows.trans he.toGrows).trans hg, hfb, ?_⟩
  have h1 := missing_congr (L := L) (congrArg Mem.pointersPerBlock (d₂.putRecord_mem n _)) hset
  have h2 := he.account
  rw [hob.missing] at h2
  have h3 := hob.free
  unfold Disk.need
  rw [h1, hfb, ← hl]
  change _ = _ + d₂.freeBlocks
  omega

theorem allocateUpTo_spec {l : ℕ} (hlL : l ≤ L) : ∀ (fuel : ℕ) (d : Disk) (ino : Buf), Ready S I n d →
    Holds d n ino →
    Fits n L d → l + 1 - d.fileBlocks n < fuel →
    Does (allocateUpTo n l fuel ino) d ((l + 1 - d.fileBlocks n) * (3 * d.bgdBlockSpan + 18)) fun ino' d' =>
      Holds d' n ino' ∧ Changes S I n L d d' ∧ (∀ pos, d'.fileByte n pos = d.fileByte n pos) ∧
      d'.fileLength n = d.fileLength n ∧ d'.fileBlocks n = max (d.fileBlocks n) (l + 1)
  | 0, _, _, _, _, _, h => by omega
  | fuel + 1, d, ino, hr, hold, hf, hfuel => by
    have hblocks : d.blocksOf ino = d.fileBlocks n := by
      simp only [Disk.fileBlocks, Mem.blocksOf, inodeBlocks_congr hold hr.wf.geometry.inode_ge]
    refine does_this ?_
    rw [hblocks]
    by_cases hge : l ≥ d.fileBlocks n
    · rw [if_pos hge]
      have hcost : l + 1 - d.fileBlocks n = (l + 1 - (d.fileBlocks n + 1)) + 1 := by omega
      rw [hcost, Nat.add_mul, Nat.one_mul, Nat.add_comm]
      refine ((allocateInodeBlock_spec hr hold hf (by omega)).bind
        (m := 1 + (l + 1 - (d.fileBlocks n + 1)) * (3 * d.bgdBlockSpan + 18)) ?_).mono (by omega)
          fun _ _ hq => hq
      rintro ⟨_, ino₁⟩ d₁ ⟨-, hg, hb, ha⟩
      have hc := hg.changes ha
      have hr₁ := hc.ready hr
      refine (hr₁.wf.refreshInode_spec hr₁.usable hr.inode hr₁.found ino₁).bind ?_
      rintro ino₂ d₂ ⟨rfl, hold₂⟩
      refine (allocateUpTo_spec hlL fuel d₂ ino₂ hr₁ hold₂ (hc.fits hf) (by omega)).mono
        (by rw [hb, hg.shape.span]) ?_
      rintro ino' d' ⟨h1, h2, h3, h4, h5⟩
      exact ⟨h1, hc.trans h2, fun pos => (h3 pos).trans (hg.bytes pos), h4.trans hg.length, by omega⟩
    · rw [if_neg hge]
      exact .pure ⟨hold, ⟨hr.wf, .refl _, fun m _ _ => .refl d m, hr.regular, rfl⟩, fun _ => rfl,
        rfl, by omega⟩

end ChiffOS.Ext2
