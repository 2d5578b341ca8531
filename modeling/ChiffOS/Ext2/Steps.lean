import ChiffOS.Ext2.InodeSpec

/-! The single steps by which the driver changes a well-formed volume, and what each does to the
files: taking a block, rewriting a record, and writing a block that is in use. -/

namespace ChiffOS.Ext2

open Buf

variable {S I : ℕ → Prop} {d d' : Disk} {n m : ℕ}

namespace WellFormed

theorem needed_set (hw : WellFormed S I d) (hS : ∀ b, S b → d.Usable b) (hn : I n) {k : Node} {l : ℕ}
    (hl : l < d.fileBlocks n) (hk : k ∈ spine d.pointersPerBlock l) :
    k.Set (d.record n) d.blocks d.pointersPerBlock := by
  have hne : ∀ a ∈ spine d.pointersPerBlock l, d.nodeBlock n a ≠ 0 := fun a ha =>
    (hS _ (hw.mem (.node n a) ⟨hn, .inl ⟨l, hl, ha⟩⟩)).1
  have hk0 := hne k hk
  have ha := fun a h => hne a (spine_above hk h)
  cases k with
  | child c =>
    refine ⟨?_, ha .double (by simp [Node.above]), hk0⟩
    unfold spine place at hk
    split_ifs at hk with h1 h2 h3 h4 <;> simp [Slot.spine, Node.above] at hk
    rw [hk]
    exact Nat.div_lt_of_lt_mul (by omega)
  | tripleChild => exact ⟨ha .triple (by simp [Node.above]), hk0⟩
  | tripleGrandchild => exact ⟨ha .triple (by simp [Node.above]), ha .tripleChild (by simp [Node.above]), hk0⟩
  | _ => exact hk0

theorem nodeLive_iff (hw : WellFormed S I d) (hS : ∀ b, S b → d.Usable b) (hn : I n)
    (hreg : Regular (d.record n)) {k : Node} :
    d.NodeLive n k ↔ k.Set (d.record n) d.blocks d.pointersPerBlock :=
  ⟨fun h => h.elim (fun ⟨_, hl, hk⟩ => hw.needed_set hS hn hl hk) fun h => h.2, fun h => .inr ⟨hreg, h⟩⟩

end WellFormed

/-! ### Taking a block -/

section Take

theorem Took.shape {P : Pool} {g j : ℕ} (ht : Took P g j d d') : d.SameShape d'.toMem := by
  rw [ht.mem]
  exact Mem.sameShape_take P d.toMem g

theorem Took.freeBlock {g j b : ℕ} (ht : Took .blocks g j d d') (h : d'.FreeBlock b) :
    d.FreeBlock b ∧ b ≠ d.blockAt g j := by
  obtain ⟨x, y, hc, rfl⟩ := h
  have hat : d'.blockAt x y = d.blockAt x y := by
    simp only [Mem.blockAt, ht.shape.blocksPerGroup]
  obtain ⟨h1, h2⟩ := (ht.clear_iff _ _ _).mp hc
  refine ⟨⟨x, y, h1, hat⟩, fun he => h2 ⟨rfl, ?_⟩⟩
  exact Pool.numberAt_inj (P := .blocks) h1.2.1 ht.clear.2.1 (hat.symm.trans he)

variable {g j : ℕ} (hw : WellFormed S I d) (hS : ∀ b, S b → d.Usable b) (ht : Took .blocks g j d d')
include hw hS ht

theorem Took.keeps {r : Ref} (hr : r.Live I d) (hb : ∀ g, r ≠ .table (.blockBitmap g))
    (hd : ∀ i, r ≠ .table (.descriptor i)) : d'.blocks (r.block d) = d.blocks (r.block d) := by
  have hp := (hw.allocOk hS).placed
  refine ht.rest _ (fun he => ?_) (fun i hi he => ?_) fun _ => hw.free_unused _ ⟨g, j, ht.clear, rfl⟩ r hr
  · exact hb g (hw.inj r (.table (.blockBitmap g)) hr ht.clear.1 he)
  · exact hd i (hw.inj r (.table (.descriptor i)) hr (hp.span i hi) he)

theorem Took.record_eq (hn : I n) : d'.record n = d.record n := by
  have hs := ht.shape
  unfold Disk.record
  rw [hs.recordBlock, hs.recordByte]
  exact congrArg (fun b : Buf => b.drop (d.recordByte n))
    (Took.keeps hw hS ht (hw.recordRef_live hn) (by simp [Mem.recordRef]) (by simp [Mem.recordRef]))

theorem Took.untouched (hn : I n) : Untouched d d' n where
  record := by rw [Took.record_eq hw hS ht hn]; exact fun _ _ _ => rfl
  nodes k hk := Took.keeps hw hS ht (r := .node n k) ⟨hn, hk⟩ (by simp) (by simp)
  data l hl := Took.keeps hw hS ht (r := .data n l) ⟨hn, hl⟩ (by simp) (by simp)

theorem Took.adds : Adds S I d d' none where
  shape := ht.shape
  free _ h := (ht.freeBlock h).1
  counted := ht.counted _ hw.counted
  refs r hr := by
    have hs := ht.shape
    have hz := hw.geometry.inode_ge
    left
    cases r with
    | table r => exact ⟨(hs.meta_live r).mp hr, hs.meta_block r⟩
    | data n l => exact (Took.untouched hw hS ht hr.1).refs hs hz (.inl ⟨l, rfl⟩) hr
    | node n k => exact (Took.untouched hw hS ht hr.1).refs hs hz (.inr ⟨k, rfl⟩) hr

theorem Took.reserved : Reserved S I d' (d.blockAt g j) := by
  have hf : d.FreeBlock (d.blockAt g j) := ⟨g, j, ht.clear, rfl⟩
  refine ⟨hw.free_mem _ hf, fun h => (ht.freeBlock h).2 rfl, fun r hr => ?_⟩
  rcases (Took.adds hw hS ht).refs r hr with ⟨h1, h2⟩ | ⟨h1, -⟩
  · rw [h2]; exact hw.free_unused _ hf r h1
  · simp at h1

theorem Took.reserved_old {c : ℕ} (hc : Reserved S I d c) : Reserved S I d' c ∧ d'.blocks c = d.blocks c := by
  have hf : d.FreeBlock (d.blockAt g j) := ⟨g, j, ht.clear, rfl⟩
  refine ⟨(Took.adds hw hS ht).reserved hc (by simp), ?_⟩
  refine ht.rest c (fun he => hc.unused (.table (.blockBitmap g)) ht.clear.1 he.symm) (fun i hi he => ?_)
    fun _ he => hc.taken (he ▸ hf)
  exact hc.unused (.table (.descriptor i)) ((hw.allocOk hS).placed.span i hi) he.symm

end Take

/-! ### Writing a block that is in use -/

section Write

variable {r : Ref} {buf : Buf}

theorem WellFormed.setBlock_free (hw : WellFormed S I d) (hr : r.Live I d)
    (hb : ∀ g, r ≠ .table (.blockBitmap g)) :
    (∀ b, (d.setBlock (r.block d) buf).FreeBlock b ↔ d.FreeBlock b) ∧
      Pool.blocks.Counted (d.setBlock (r.block d) buf) := by
  have hkeep : ∀ g < d.blockGroupCount, (d.setBlock (r.block d) buf).blocks (Pool.blocks.bitmap d.toMem g) =
      d.blocks (Pool.blocks.bitmap d.toMem g) := fun g hg =>
    d.setBlock_ne buf fun he => hb g (hw.inj r (.table (.blockBitmap g)) hr hg he.symm)
  have hmem : (d.setBlock (r.block d) buf).toMem = d.toMem := rfl
  refine ⟨fun b => ?_, hw.counted.congr hmem hkeep⟩
  exact exists_congr fun g => exists_congr fun j => and_congr_left fun _ => Pool.clear_congr hmem hkeep

theorem WellFormed.setBlock_untouched (hw : WellFormed S I d) (hr : r.Live I d) (hm : I m)
    (hrec : SameOn ((d.setBlock (r.block d) buf).record m) (d.record m) 0 d.inodeSize)
    (hnode : ∀ k, r ≠ .node m k) (hdata : ∀ l, r ≠ .data m l) :
      Untouched d (d.setBlock (r.block d) buf) m where
  record := hrec
  nodes k hk := d.setBlock_ne buf fun he => hnode k (hw.inj r (.node m k) hr ⟨hm, hk⟩ he.symm)
  data l hl := d.setBlock_ne buf fun he => hdata l (hw.inj r (.data m l) hr ⟨hm, hl⟩ he.symm)

theorem WellFormed.setBlock_record (hw : WellFormed S I d) (hr : r.Live I d) (hm : I m)
    (hne : r ≠ d.recordRef m) :
    (d.setBlock (r.block d) buf).record m = d.record m := by
  have : (d.setBlock (r.block d) buf).blocks (d.recordBlock m) = d.blocks (d.recordBlock m) :=
    d.setBlock_ne buf fun he => hne (hw.inj r (d.recordRef m) hr (hw.recordRef_live hm) he.symm)
  exact congrArg (fun b : Buf => b.drop (d.recordByte m)) this

/-- Writing a block adds at most one use if it does so for the file it belongs to. -/
theorem WellFormed.setBlock_adds (hw : WellFormed S I d) (hr : r.Live I d)
    (hb : ∀ g, r ≠ .table (.blockBitmap g))
    (hother : ∀ m, I m → m ≠ n → Untouched d (d.setBlock (r.block d) buf) m) {r₁ : Option Ref}
    (hself : ∀ s : Ref, (∃ l, s = .data n l) ∨ (∃ k, s = .node n k) → s.Live I (d.setBlock (r.block d) buf) →
      (s.Live I d ∧ s.block (d.setBlock (r.block d) buf) = s.block d) ∨
        (r₁ = some s ∧ Reserved S I d (s.block (d.setBlock (r.block d) buf)))) :
    Adds S I d (d.setBlock (r.block d) buf) r₁ where
  shape := .refl _
  free b h := ((hw.setBlock_free hr hb).1 b).mp h
  counted := (hw.setBlock_free hr hb).2
  refs s hs := by
    have hz := hw.geometry.inode_ge
    cases s with
    | table r => exact .inl ⟨hs, rfl⟩
    | data m l =>
      by_cases hmn : m = n
      · subst hmn; exact hself _ (.inl ⟨l, rfl⟩) hs
      · exact .inl ((hother m hs.1 hmn).refs (.refl _) hz (.inl ⟨l, rfl⟩) hs)
    | node m k =>
      by_cases hmn : m = n
      · subst hmn; exact hself _ (.inr ⟨k, rfl⟩) hs
      · exact .inl ((hother m hs.1 hmn).refs (.refl _) hz (.inr ⟨k, rfl⟩) hs)

end Write

/-! ### Rewriting a record -/

section Record

variable {ino : Buf}

theorem putRecord_self (d : Disk) (n : ℕ) (ino : Buf) : SameOn
    ((d.putRecord n ino).record n) ino 0 d.inodeSize := by
  intro i _ hi
  have hbyte : (d.putRecord n ino).blocks (d.recordBlock n) =
      (d.blocks (d.recordBlock n)).blit (d.recordByte n) ino d.inodeSize := d.setBlock_self _ _
  change (d.putRecord n ino).blocks (d.recordBlock n) (d.recordByte n + i) = _
  rw [hbyte, blit_in (by omega) (by omega), Nat.add_sub_cancel_left]

variable (hw : WellFormed S I d)
include hw

theorem putRecord_other (hn : I n) (hm : I m) (hne : m ≠ n) :
    SameOn ((d.putRecord n ino).record m) (d.record m) 0 d.inodeSize := by
  intro i _ hi
  change (d.putRecord n ino).blocks (d.recordBlock m) (d.recordByte m + i) =
    d.blocks (d.recordBlock m) (d.recordByte m + i)
  by_cases hb : d.recordBlock m = d.recordBlock n
  · have hap := hw.records_apart hn hm hne hb
    rw [hb, Disk.putRecord, Disk.setBlock_self, blit_out (by omega)]
  · rw [Disk.putRecord, Disk.setBlock_ne _ _ hb]

/-- The pointer blocks and data blocks of all files stay. -/
theorem putRecord_keeps (hn : I n) {r : Ref} (hr : r.Live I d) (ht : ∀ x, r ≠ .table x) :
    (d.putRecord n ino).blocks (r.block d) = d.blocks (r.block d) :=
  d.setBlock_ne _ fun he => ht _ (hw.inj r (d.recordRef n) hr (hw.recordRef_live hn) he)

theorem putRecord_untouched (hn : I n) (hm : I m) (hne : m ≠ n) : Untouched d (d.putRecord n ino) m where
  record := putRecord_other hw hn hm hne
  nodes k hk := putRecord_keeps hw hn (r := .node m k) ⟨hm, hk⟩ (by simp)
  data l hl := putRecord_keeps hw hn (r := .data m l) ⟨hm, hl⟩ (by simp)

end Record

end ChiffOS.Ext2
