import ChiffOS.Ext2.DirFormat
import ChiffOS.Ext2.WriteLoop

/-! The loops over a directory follow its records, block after block. They count the blocks with one byte,
so what comes as the block with number `l` is the block `l % 256`. -/

namespace ChiffOS.Ext2

open Buf Prog Tiling List

/-! ### Programs that end -/

namespace Fs

/-- With `t`, the next `k` accesses find an entry of the cache to use. -/
def Room (t : Prop) (g : Fs) (k : ℕ) : Prop := t → g.Awake k

/-- What the program does if it returns; with `t` it does return, with room for `k` more accesses. -/
structure Ends {α : Type} (t : Prop) (g : Fs) (p : Ext2M α) (k : ℕ) (Q : α → Fs → Prop) : Prop where
  post : Post fsHandler p g Q
  returns : t → g.Returns p k

section Ends

variable {α β : Type} {t : Prop} {g : Fs} {p q : Ext2M α} {f : α → Ext2M β} {k j : ℕ} {P P' : α → Fs → Prop}
    {Q : β → Fs → Prop}

theorem Awake.mono (h : g.Awake k) (hj : j ≤ k) : g.Awake j := by
  intro dc hdc
  obtain ⟨h1, h2, h3⟩ := h dc hdc
  exact ⟨h1, h2, by omega⟩

theorem Room.mono (h : g.Room t k) (hj : j ≤ k) : g.Room t j := fun ht => (h ht).mono hj

theorem Ends.room (h : g.Ends t p k P) : Post fsHandler p g fun a g' => P a g' ∧ g'.Room t k := by
  intro a g' hr
  refine ⟨h.post a g' hr, fun ht => ?_⟩
  obtain ⟨b, g₁, hr₁, hk⟩ := h.returns ht
  obtain ⟨-, rfl⟩ := Prod.mk.inj (Option.some.inj (hr.symm.trans hr₁))
  exact hk

theorem Ends.bind (h : g.Ends t p k P) (hf : ∀ a g', g'.Room t k → P a g' → g'.Ends t (f a) j Q) : g.Ends t
    (p >>= f) j Q := by
  refine ⟨Post.bind h.room fun a g' h' => (hf a g' h'.2 h'.1).post, fun ht => ?_⟩
  obtain ⟨a, g₁, hr, hk⟩ := h.returns ht
  obtain ⟨b, g₂, hr₂, hj⟩ := (hf a g₁ (fun _ => hk) (h.post a g₁ hr)).returns ht
  exact ⟨b, g₂, by rw [run_bind, hr, Option.bind_some, hr₂], hj⟩

theorem Ends.mono (h : g.Ends t p k P) (hj : j ≤ k) (hP : ∀ a g', P a g' → P' a g') : g.Ends t p j P' := by
  refine ⟨h.post.mono hP, fun ht => ?_⟩
  obtain ⟨a, g', hr, hk⟩ := h.returns ht
  exact ⟨a, g', hr, hk.mono hj⟩

theorem Ends.of_run (h : g.Ends t q k P) (hrun : p.run fsHandler g = q.run fsHandler g) : g.Ends t p k P := by
  refine ⟨fun a g' hr => h.post a g' (hrun ▸ hr), fun ht => ?_⟩
  obtain ⟨a, g', hr, hk⟩ := h.returns ht
  exact ⟨a, g', hrun.trans hr, hk⟩

theorem Ends.run (h : g.Ends True p k P) : ∃ a g', p.run fsHandler g = some (a, g') ∧ P a g' ∧
    g'.Awake k := by
  obtain ⟨a, g', hr, hk⟩ := h.returns trivial
  exact ⟨a, g', hr, h.post a g' hr, hk⟩

theorem ends_pure (hk : g.Room t k) {a : α} (h : P a g) : g.Ends t (Pure.pure a) k P :=
  ⟨Post.pure h, fun ht => returns_pure (hk ht) a⟩

theorem ends_this {f : Mem → Ext2M β} (h : g.Ends t (f g.toMem) k Q) : g.Ends t (this >>= f) k Q :=
  h.of_run (by rw [run_bind, this, run_ask]; rfl)

theorem ends_needBytes {c : Cursor} {len : ℕ} {f : Unit → Ext2M β} (hc : c.dirOffset + len ≤ g.blockSize)
    (h : g.Ends t (f ()) k Q) : g.Ends t (needBytes c len >>= f) k Q := by
  refine h.of_run ?_
  have hneed : (needBytes c len).run fsHandler g = some ((), g) := by
    rw [needBytes, run_bind, this, run_ask]
    exact congrArg (fun p : Ext2M Unit => p.run fsHandler g) (if_neg (Nat.not_lt.mpr hc))
  rw [run_bind, hneed]
  rfl

theorem ends_looks {S : ℕ → Prop} {fs : Fs} (hp : Only Reading p) (hg : fs.Looked S g)
    (hr : t → g.Returns p k) :
    g.Ends t p k fun _ g' => fs.Looked S g' :=
  ⟨fun a g' h => hg.trans (Only.looks hp S g a g' h hg.sound), hr⟩

theorem ends_malloc {S : ℕ → Prop} {fs : Fs} {f : Buf → Ext2M β} (hg : fs.Looked S g) (hk : g.Room t k)
    (h : ∀ buf g', fs.Looked S g' → g'.Room t k → g'.Ends t (f buf) j Q) : g.Ends t (malloc >>= f) j Q :=
  (ends_looks (p := malloc) (.ask trivial) hg fun ht => returns_malloc (hk ht)).bind fun buf g' hk' hg' =>
    h buf g' hg' hk'

theorem returns_readInode (h : g.Awake (k + 1)) (i : ℕ) : g.Returns (readInode i) k := by
  refine (returns_malloc h).bind fun ino g₁ h₁ => ?_
  refine (show g₁.Returns this (k + 1) from ⟨g₁.toMem, g₁, rfl, h₁⟩).bind fun m g₂ h₂ => ?_
  split_ifs
  · exact returns_pure h₂.less _
  · exact (returns_malloc h₂).bind fun buf g₃ h₃ => (returns_read h₃ _ _).bind fun _ _ h₄ => returns_pure h₄ _

theorem returns_inodeReadBlock (h : g.Awake (k + 4)) (hmap : ∀ l, mapPath g.pointersPerBlock l ≠ .divByZero)
    (ino : Buf) (l : ℕ)
    (buf : Buf) : g.Returns (inodeReadBlock ino l buf) k := by
  change ∃ r g', (this >>= _).run fsHandler g = _ ∧ _
  rw [run_bind, this, run_ask, show fsHandler Ext2Op.this g = some (g.toMem, g) from rfl, Option.bind_some]
  split_ifs
  · exact returns_pure (h.mono (by omega)) _
  · refine (returns_getBlockNumber (k := k + 1) (h.mono (by omega)) ino l (hmap l)).bind fun b g₁ h₁ => ?_
    exact (returns_read h₁ _ _).bind fun _ _ h₂ => returns_pure h₂ _

theorem returns_inodeWriteBlock (h : g.Awake (k + 4)) (hmap : ∀ l, mapPath g.pointersPerBlock l ≠ .divByZero)
    {ino : Buf} {l : ℕ}
    (hl : l < g.blocksOf ino) (n : ℕ) (buf : Buf) : g.Returns (inodeWriteBlock ino n l buf) k := by
  have hrun : (allocateUpTo n l (2 ^ 32) ino).run fsHandler g = some (ino, g) := by
    change (this >>= _).run fsHandler g = _
    rw [run_bind, this, run_ask, show fsHandler Ext2Op.this g = some (g.toMem, g) from rfl, Option.bind_some,
      if_neg (Nat.not_le.mpr hl)]
    rfl
  obtain ⟨r, g', hr, hk⟩ : g.Returns (getBlockNumber ino l >>= fun b => Ext2.writeBlock b buf >>= fun _ =>
    Pure.pure (b, ino)) k := by
    refine (returns_getBlockNumber (k := k + 1) (h.mono (by omega)) ino l (hmap l)).bind fun b g₁ h₁ => ?_
    exact (returns_write h₁ _ _).bind fun _ _ h₂ => returns_pure h₂ _
  exact ⟨r, g', by rw [inodeWriteBlock, run_bind, hrun, Option.bind_some]; exact hr, hk⟩

end Ends

/-! ### A directory and what its loops see -/

def dirData (fs : Fs) (n l : ℕ) : Buf := fs.disk.blocks (fs.dirBlock n l)

def dirRecords (fs : Fs) (n l : ℕ) : List DirRec := records (fs.dirData n l) fs.blockSize

def allRecords (fs : Fs) (n : ℕ) : List DirRec := (List.range (fs.dirBlocks n)).flatMap (fs.dirRecords n)

def listing (fs : Fs) (n : ℕ) : List (List UInt8 × ℕ) := live (fs.allRecords n)

/-- A directory whose blocks are its own and are tiled by their records. -/
structure WellFormedDir (S : ℕ → Prop) (fs : Fs) (n : ℕ) : Prop where
  dir : fs.Directory S n
  mode : inodeMode (fs.storedInode n) &&& sIfdir ≠ 0
  inj : ∀ l < fs.dirBlocks n, ∀ l' < fs.dirBlocks n, fs.dirBlock n l = fs.dirBlock n l' → l = l'
  record : ∀ l < fs.dirBlocks n, (inodeSlot fs.toMem n).1 ≠ fs.dirBlock n l
  nodes : ∀ l < fs.dirBlocks n, ∀ l' < fs.dirBlocks n, ∀ k ∈ spine fs.pointersPerBlock l',
    k.block (fs.storedInode n) fs.disk.blocks ≠ fs.dirBlock n l
  rows : ∀ l < fs.dirBlocks n, Row (fs.dirData n l) fs.blockSize (fs.dirRecords n l)

def later (fs : Fs) (n l : ℕ) : List DirRec :=
  (List.range' (l + 1) (fs.dirBlocks n - (l + 1))).flatMap fun l => fs.dirRecords n (l % 256)

def seen (fs : Fs) (n : ℕ) : List DirRec := (List.range (fs.dirBlocks n)).flatMap fun l => fs.dirRecords n
    (l % 256)

structure Pos (fs : Fs) (n : ℕ) (c : Cursor) (l : ℕ) (before rs : List DirRec) : Prop where
  lt : l < fs.dirBlocks n
  nr : c.blockNr = l % 256
  block : SameOn c.block (fs.dirData n (l % 256)) 0 fs.blockSize
  row : fs.dirRecords n (l % 256) = before ++ rs
  offset : c.dirOffset = span DirRec.recLen before
  total : c.totalOffset = l * fs.blockSize + c.dirOffset

def Coming (fs : Fs) (n : ℕ) (c : Cursor) (todo : List DirRec) : Prop :=
  ∃ l before rs, fs.Pos n c l before rs ∧ todo = rs ++ fs.later n l

def Stand (fs : Fs) (n : ℕ) (c : Cursor) (r : DirRec) (todo : List DirRec) : Prop :=
  ∃ l before rs, fs.Pos n c l before (r :: rs) ∧ todo = rs ++ fs.later n l

/-- What the loop reads there. -/
structure Here (fs : Fs) (c : Cursor) (r : DirRec) : Prop where
  record : recAt c.block c.dirOffset = r
  nameLen : c.nameLen = r.name.length
  fits : r.Fits
  pos : 0 < r.recLen
  room : c.dirOffset + r.recLen ≤ fs.blockSize

theorem Here.fields {fs : Fs} {c : Cursor} {r : DirRec} (h : fs.Here c r) :
    c.inode = r.inode ∧ c.recLen = r.recLen ∧ c.name = r.name ∧ 8 + r.name.length ≤ r.recLen := by
  obtain ⟨rfl, _, hfit, _, _⟩ := h
  exact ⟨rfl, rfl, rfl, hfit.2⟩

variable {t : Prop} {S : ℕ → Prop} {fs g : Fs} {n l k : ℕ} {c : Cursor} {r : DirRec}
    {before rs todo : List DirRec}

theorem later_eq (fs : Fs) (n : ℕ) {l : ℕ} (hl : l + 1 < fs.dirBlocks n) :
    fs.later n l = fs.dirRecords n ((l + 1) % 256) ++ fs.later n (l + 1) := by
  obtain ⟨m, hm⟩ := Nat.exists_eq_add_of_lt hl
  rw [later, later, hm, show l + 1 + m + 1 - (l + 1) =
    m + 1 by omega, show l + 1 + m + 1 - (l + 1 + 1) = m by omega,
    List.range'_succ, flatMap_cons]

theorem later_last (fs : Fs) (n : ℕ) {l : ℕ} (hl : ¬ l + 1 < fs.dirBlocks n) : fs.later n l = [] := by
  rw [later, show fs.dirBlocks n - (l + 1) = 0 by omega]
  rfl

theorem seen_eq (fs : Fs) (n : ℕ) (h : 0 < fs.dirBlocks n) : fs.seen n =
    fs.dirRecords n 0 ++ fs.later n 0 := by
  obtain ⟨m, hm⟩ := Nat.exists_eq_succ_of_ne_zero (Nat.ne_of_gt h)
  rw [seen, later, hm, range_eq_range', List.range'_succ, flatMap_cons]
  rfl

/-- In a directory of at most 256 blocks the loops come to every block. -/
theorem seen_eq_all (h : fs.dirBlocks n ≤ 256) : fs.seen n = fs.allRecords n := by
  unfold seen allRecords
  rw [flatMap_def, flatMap_def]
  congr 1
  apply map_congr_left
  intro l hl
  rw [Nat.mod_eq_of_lt ((mem_range.mp hl).trans_le h)]

namespace WellFormedDir

theorem row_mod (hw : fs.WellFormedDir S n) (hl : l < fs.dirBlocks n) :
    Row (fs.dirData n (l % 256)) fs.blockSize (fs.dirRecords n (l % 256)) :=
  hw.rows _ ((Nat.mod_le _ _).trans_lt hl)

theorem last_lt (hw : fs.WellFormedDir S n) : (fs.dirBlocks n - 1) % 256 < fs.dirBlocks n :=
  (Nat.mod_le _ _).trans_lt (Nat.sub_lt hw.dir.pos one_pos)

theorem seen_length (hw : fs.WellFormedDir S n) : (fs.seen n).length < 2 ^ 32 := by
  refine lt_of_le_of_lt ?_ (hw.dir.length ▸ u32_lt _ _ : fs.dirBlocks n * fs.blockSize < 2 ^ 32)
  rw [seen, length_flatMap]
  refine (sum_le_card_nsmul _ fs.blockSize fun m hm => ?_).trans (by simp)
  obtain ⟨l, hl, rfl⟩ := mem_map.mp hm
  simpa using (hw.row_mod (mem_range.mp hl)).tiles.length_le

theorem size_lt (hw : fs.WellFormedDir S n) : fs.dirBlocks n * fs.blockSize < 2 ^ 32 :=
    hw.dir.length ▸ u32_lt _ _

end WellFormedDir

section Places

variable (hw : fs.WellFormedDir S n)
include hw

theorem Pos.room (hpos : fs.Pos n c l before rs) : c.dirOffset + span DirRec.recLen rs = fs.blockSize := by
  have h := (hw.row_mod hpos.lt).tiles.end_eq
  rw [hpos.row, span_append, Nat.zero_add] at h
  rw [hpos.offset, h]

theorem Stand.here (h : fs.Stand n c r todo) : fs.Here c r := by
  obtain ⟨l, before, rs, hpos, -⟩ := h
  have hrow := hw.row_mod hpos.lt
  rw [hpos.row] at hrow
  obtain ⟨rfl, hfit, hlen, hend⟩ := (hrow.congr hpos.block).split
  rw [← hpos.offset] at *
  exact ⟨rfl, (entName_length _ _).symm, hfit, hlen, by omega⟩

theorem Pos.before_end (hpos : fs.Pos n c l before rs) :
    c.totalOffset + span DirRec.recLen rs = (l + 1) * fs.blockSize ∧
      (l + 1) * fs.blockSize ≤ fs.dirBlocks n * fs.blockSize := by
  have h := hpos.room hw
  refine ⟨?_, Nat.mul_le_mul_right _ hpos.lt⟩
  rw [hpos.total, Nat.succ_mul]
  omega

variable (hm : fs.Ready S)
include hm

theorem row_ne_nil (hl : l < fs.dirBlocks n) : fs.dirRecords n (l % 256) ≠ [] := by
  intro hnil
  have h := (hw.row_mod hl).tiles
  rw [hnil] at h
  have hsize : 0 = fs.blockSize := h
  have hpos : 0 < fs.blockSize := Nat.pos_of_dvd_of_pos hm.sized.block (by norm_num)
  omega

/-- The loop has to go on exactly if there is a record to come. -/
theorem Coming.lt_iff (h : fs.Coming n c todo) : c.totalOffset < fs.dirBlocks n * fs.blockSize ↔
    todo ≠ [] := by
  obtain ⟨l, before, rs, hpos, rfl⟩ := h
  obtain ⟨h1, h2⟩ := hpos.before_end hw
  by_cases hl : l + 1 < fs.dirBlocks n
  · have hlt := Nat.mul_lt_mul_of_pos_right hl (Nat.pos_of_dvd_of_pos hm.sized.block (by norm_num))
    refine iff_of_true (by omega) ?_
    rw [later_eq fs n hl]
    simp [row_ne_nil hw hm hl]
  · have hlast : l + 1 = fs.dirBlocks n := by
      have := hpos.lt
      omega
    rw [later_last fs n hl, append_nil]
    rw [hlast] at h1
    cases rs with
    | nil => simpa using h1.ge
    | cons r rs =>
      have hstand : fs.Stand n c r (rs ++ fs.later n l) := ⟨l, before, rs, hpos, rfl⟩
      have := (hstand.here hw).pos
      rw [span_cons] at h1
      simp only [ne_eq, reduceCtorEq, not_false_eq_true, iff_true]
      omega

theorem Coming.eq_iff (h : fs.Coming n c todo) : c.totalOffset = fs.dirBlocks n * fs.blockSize ↔ todo =
    [] := by
  have hlt := h.lt_iff hw hm
  obtain ⟨l, before, rs, hpos, rfl⟩ := h
  obtain ⟨h1, h2⟩ := hpos.before_end hw
  rw [← not_iff_not, ← ne_eq (_ ++ _), ← hlt]
  omega

theorem Stand.last (h : fs.Stand n c r []) : ∃ before, fs.dirRecords n ((fs.dirBlocks n - 1) % 256) =
    before ++ [r] ∧
    c.blockNr = (fs.dirBlocks n - 1) % 256 ∧ c.dirOffset = span DirRec.recLen before ∧
    SameOn c.block (fs.dirData n ((fs.dirBlocks n - 1) % 256)) 0 fs.blockSize := by
  obtain ⟨l, before, rs, hpos, hnil⟩ := h
  obtain ⟨rfl, hlater⟩ := append_eq_nil_iff.mp hnil.symm
  have hl : ¬ l + 1 < fs.dirBlocks n := by
    intro hl
    rw [later_eq fs n hl] at hlater
    exact row_ne_nil hw hm hl (append_eq_nil_iff.mp hlater).1
  obtain rfl : l = fs.dirBlocks n - 1 := by
    have := hpos.lt
    omega
  exact ⟨before, hpos.row, hpos.nr, hpos.offset, hpos.block⟩

theorem Stand.skip (h : fs.Stand n c r todo) : fs.Coming n (c.skip r.recLen) todo := by
  have hroom := (h.here hw).room
  obtain ⟨l, before, rs, hpos, rfl⟩ := h
  obtain ⟨h1, h2⟩ := hpos.before_end hw
  have h3 := hw.size_lt
  have h4 := hm.size_le
  rw [span_cons] at h1
  have hd : (c.dirOffset + r.recLen) % 2 ^ 32 = c.dirOffset + r.recLen := Nat.mod_eq_of_lt (by omega)
  have ht : (c.totalOffset + r.recLen) % 2 ^ 32 = c.totalOffset + r.recLen := Nat.mod_eq_of_lt (by omega)
  refine ⟨l, before ++ [r], rs, ⟨hpos.lt, hpos.nr, hpos.block, by rw [hpos.row]; simp, ?_, ?_⟩, rfl⟩
  · change (c.dirOffset + r.recLen) % 2 ^ 32 = _
    rw [hd, hpos.offset, span_append, span_cons, span_nil, Nat.add_zero]
  · change (c.totalOffset + r.recLen) % 2 ^ 32 = l * fs.blockSize + (c.dirOffset + r.recLen) % 2 ^ 32
    rw [hd, ht, hpos.total, Nat.add_assoc]

theorem Stand.block_end (h : fs.Stand n c r []) : c.dirOffset + r.recLen = fs.blockSize := by
  obtain ⟨before, hrow, -, hoff, -⟩ := h.last hw hm
  have hend := (hw.row_mod (Nat.sub_lt hw.dir.pos one_pos)).tiles.end_eq
  rw [hrow, span_append, span_cons, span_nil] at hend
  omega

theorem Stand.skip_need (h : fs.Stand n c r []) (hr : r.need ≤ r.recLen) : (c.skip r.need).dirOffset =
    c.dirOffset + r.need := by
  have hend := h.block_end hw hm
  have hle := hm.size_le
  exact Nat.mod_eq_of_lt (by omega)

omit hm hw in
theorem Stand.coming (h : fs.Stand n c r todo) : fs.Coming n c (r :: todo) := by
  obtain ⟨l, before, rs, hpos, rfl⟩ := h
  exact ⟨l, before, r :: rs, hpos, rfl⟩

end Places

/-! ### The loops -/

section Blocks

variable {pinode : Buf} (hm : fs.Ready S) (hd : fs.Directory S n)
    (hp : SameOn pinode (fs.storedInode n) 0 fs.inodeSize)
include hm hd hp

theorem pinode_length : inodeLength pinode = fs.dirBlocks n * fs.blockSize :=
  (inodeLength_congr hp hm.sized.record).trans hd.length

omit hp hd in
theorem map_ok (hg : fs.Looked S g) (l : ℕ) : mapPath g.pointersPerBlock l ≠ .divByZero := by
  have hpp : g.pointersPerBlock = fs.pointersPerBlock := congrArg Mem.pointersPerBlock hg.mem
  have h1 := hm.sized.pointers
  have h2 := hm.size_le
  have hle : fs.pointersPerBlock ≤ 16384 := by omega
  have hsq := Nat.mul_le_mul hle hle
  rw [hpp, mapPath_eq hm.pointers (by omega)]
  split_ifs <;> simp

theorem ends_readDirBlock (hg : fs.Looked S g) (hk : g.Room t (k + 4)) (hl : l < fs.dirBlocks n) (buf : Buf) :
    g.Ends t (inodeReadBlock pinode l buf) k fun r g' => fs.Looked S g' ∧
      SameOn r.2 (fs.dirData n l) 0 fs.blockSize :=
  ⟨post_readDirBlock hm hd hp hg hl buf, fun ht => returns_inodeReadBlock (hk ht) (map_ok hm hg) pinode l buf⟩

theorem ends_openBlock (hg : fs.Looked S g) (hk : g.Room t (k + 4)) : g.Ends t (openDir pinode) k fun c g' =>
    fs.Looked S g' ∧ ∃ block, SameOn block (fs.dirData n 0) 0 fs.blockSize ∧ c = ⟨block, 0, 0, 0⟩ := by
  refine ends_malloc hg hk fun buf g₁ hg₁ hk₁ => ?_
  exact (ends_readDirBlock hm hd hp hg₁ hk₁ hd.pos buf).bind fun r g₂ hk₂ h₂ =>
    ends_pure hk₂ ⟨h₂.1, r.2, h₂.2, rfl⟩

end Blocks

section Loops

variable {pinode : Buf} (hm : fs.Ready S) (hw : fs.WellFormedDir S n)
    (hp : SameOn pinode (fs.storedInode n) 0 fs.inodeSize)
include hm hw hp

theorem ends_openDir (hg : fs.Looked S g) (hk : g.Room t (k + 4)) : g.Ends t (openDir pinode) k fun c g' =>
    fs.Looked S g' ∧ ∃ r todo, fs.seen n = r :: todo ∧ fs.Stand n c r todo := by
  refine (ends_openBlock hm hw.dir hp hg hk).mono le_rfl ?_
  rintro _ g' ⟨hg', block, hblock, rfl⟩
  rw [seen_eq fs n hw.dir.pos]
  cases hrow : fs.dirRecords n 0 with
  | nil => exact absurd hrow (row_ne_nil hw hm (l := 0) hw.dir.pos)
  | cons r rs => exact ⟨hg', r, _, rfl, 0, [], rs, ⟨hw.dir.pos, rfl, hblock, hrow, rfl, by simp⟩, rfl⟩

theorem ends_turnBlock (hg : fs.Looked S g) (hk : g.Room t (k + 4)) (hc : fs.Coming n c (r :: todo)) :
    g.Ends t (turnBlock pinode c) k fun c' g' => fs.Looked S g' ∧ fs.Stand n c' r todo := by
  obtain ⟨l, before, rs, hpos, htodo⟩ := hc
  have hroom := hpos.room hw
  refine ends_this ?_
  rw [show g.toMem = fs.toMem from hg.mem]
  cases rs with
  | cons r' rs =>
    obtain ⟨rfl, rfl⟩ := List.cons.inj htodo
    have hstand : fs.Stand n c r (rs ++ fs.later n l) := ⟨l, before, rs, hpos, rfl⟩
    have h1 := (hstand.here hw).pos
    have h2 := (hstand.here hw).room
    rw [if_neg (by omega)]
    exact ends_pure (hk.mono (by omega)) ⟨hg, hstand⟩
  | nil =>
    have hl : l + 1 < fs.dirBlocks n := by
      by_contra hl
      rw [later_last fs n hl] at htodo
      exact absurd htodo (by simp)
    rw [span_nil, Nat.add_zero] at hroom
    have hnr : (c.blockNr + 1) % 256 = (l + 1) % 256 := by rw [hpos.nr]; omega
    rw [if_pos (by omega), hnr]
    refine (ends_readDirBlock hm hw.dir hp hg hk ((Nat.mod_le _ _).trans_lt hl) c.block).bind
      fun b g₁ hk₁ h₁ => ?_
    rw [later_eq fs n hl] at htodo
    cases hrow : fs.dirRecords n ((l + 1) % 256) with
    | nil => exact absurd hrow (row_ne_nil hw hm hl)
    | cons r' rs =>
      rw [hrow] at htodo
      obtain ⟨rfl, rfl⟩ := List.cons.inj htodo
      refine ends_pure hk₁ ⟨h₁.1, l + 1, [], rs, ⟨hl, rfl, h₁.2, hrow, ?_, ?_⟩, rfl⟩
      · simp [hroom]
      · simp only [hpos.total, hroom, Nat.sub_self, Nat.succ_mul, Nat.add_zero]

/-- What the loop of `finddir_ext2` and `unlink_ext2` finds among the records. -/
def Found (fs : Fs) (n : ℕ) (name : List UInt8) (todo : List DirRec) : Option Cursor → Prop
  | none => ∀ r ∈ todo, ¬ r.Is name
  | some c => ∃ l r post, todo = l ++ r :: post ∧ (∀ x ∈ l, ¬ x.Is name) ∧ r.Is name ∧ fs.Stand n c r post

omit hm hw hp in
theorem Found.cons {name : List UInt8} {res : Option Cursor} (h : fs.Found n name todo res)
    (hr : ¬ r.Is name) :
    fs.Found n name (r :: todo) res := by
  cases res with
  | none => simpa [Found, hr] using h
  | some c =>
    obtain ⟨l, x, post, rfl, hl, hx, hc⟩ := h
    exact ⟨r :: l, x, post, rfl, by simpa [hr] using hl, hx, hc⟩

theorem ends_searchEntry (name : List UInt8) (k : ℕ) (todo : List DirRec) :
    ∀ (fuel : ℕ) (c : Cursor) (g : Fs),
    fs.Looked S g → g.Room t (4 * todo.length + k) → fs.Coming n c todo → todo.length < fuel →
    g.Ends t (searchEntry pinode name fuel c) k fun res g' => fs.Looked S g' ∧ fs.Found n name todo res := by
  induction todo with
  | nil =>
    intro fuel c g hg hk hc hf
    obtain ⟨fuel, rfl⟩ := Nat.exists_eq_succ_of_ne_zero (Nat.ne_of_gt hf)
    rw [searchEntry, pinode_length hm hw.dir hp, if_neg (by simp [hc.lt_iff hw hm])]
    exact ends_pure (hk.mono (by simp)) ⟨hg, by simp [Found]⟩
  | cons r todo ih =>
    intro fuel c g hg hk hc hf
    obtain ⟨fuel, rfl⟩ := Nat.exists_eq_succ_of_ne_zero (Nat.ne_of_gt ((Nat.zero_le _).trans_lt hf))
    rw [length_cons] at hk hf
    rw [searchEntry, pinode_length hm hw.dir hp, if_pos ((hc.lt_iff hw hm).mpr (by simp))]
    refine (ends_turnBlock hm hw hp hg (hk.mono (show 4 * todo.length + k + 4 ≤ _ by omega)) hc).bind
      fun c₁ g₁ hk₁ h₁ => ?_
    obtain ⟨hg₁, hstand⟩ := h₁
    have hhere := hstand.here hw
    obtain ⟨hinode, hrec, hname, hfits⟩ := hhere.fields
    have hroom := hhere.room
    have hsize : g₁.blockSize = fs.blockSize := congrArg Mem.blockSize hg₁.mem
    have hnext : ∀ g₂, fs.Looked S g₂ → g₂.Room t (4 * todo.length + k) → ¬ r.Is name →
        g₂.Ends t (searchEntry pinode name fuel (c₁.skip r.recLen)) k fun res g' =>
          fs.Looked S g' ∧ fs.Found n name (r :: todo) res := by
      intro g₂ hg₂ hk₂ hno
      exact (ih fuel _ g₂ hg₂ hk₂ (hstand.skip hw hm) (by omega)).mono le_rfl fun res g' h =>
        ⟨h.1, h.2.cons hno⟩
    refine ends_needBytes (by omega) ?_
    rw [hinode, hhere.nameLen, hname, hrec]
    by_cases hskip : r.inode = 0 ∨ name.length ≠ r.name.length
    · rw [if_pos hskip]
      apply hnext g₁ hg₁ hk₁
      rintro ⟨hi, rfl⟩
      exact hskip.elim hi fun h => h rfl
    · rw [if_neg hskip]
      refine ends_malloc hg₁ hk₁ fun _ g₂ hg₂ hk₂ => ?_
      have hsize₂ : g₂.blockSize = fs.blockSize := congrArg Mem.blockSize hg₂.mem
      refine ends_needBytes (by omega) ?_
      by_cases heq : r.name = name
      · rw [if_pos heq]
        exact ends_pure (hk₂.mono (by omega)) ⟨hg₂, [], r, todo,
          rfl, by simp, ⟨fun h => hskip (.inl h), heq⟩, hstand⟩
      · rw [if_neg heq]
        exact hnext g₂ hg₂ hk₂ fun h => heq h.2

omit hw hp in
theorem ends_turnBlock_last (hg : fs.Looked S g) (hk : g.Room t (k + 4)) (c : Cursor) :
    g.Ends t (turnBlock pinode c) k fun c' g' => fs.Looked S g' ∧ c'.totalOffset = c.totalOffset := by
  refine ends_this ?_
  by_cases hge : c.dirOffset ≥ g.blockSize
  · rw [if_pos hge]
    refine (ends_looks (reading_inodeReadBlock _ _ _) hg fun ht =>
      returns_inodeReadBlock (hk ht) (map_ok hm hg) _ _ _).bind ?_
    exact fun r g₁ hk₁ hg₁ => ends_pure hk₁ ⟨hg₁, rfl⟩
  · rw [if_neg hge]
    exact ends_pure (hk.mono (by omega)) ⟨hg, rfl⟩

omit hm hp in
theorem ends_takeEntry (hg : fs.Looked S g) (hk : g.Room t k) (h : fs.Stand n c r todo) :
    g.Ends t (takeEntry c) k fun out g' => fs.Looked S g' ∧ recAt out 0 = r := by
  have hhere := h.here hw
  obtain ⟨-, hrec, -, hfits⟩ := hhere.fields
  have hlen := hhere.nameLen
  have hroom := hhere.room
  have hsize : g.blockSize = fs.blockSize := congrArg Mem.blockSize hg.mem
  refine ends_needBytes (by omega) ?_
  refine ends_malloc hg hk fun _ g₁ hg₁ hk₁ => ends_pure hk₁ ⟨hg₁, ?_⟩
  rw [recAt_copy _ _ (show 8 + c.nameLen ≤ _ by omega), hhere.record]

theorem ends_seekRound {index fuel j k' : ℕ} {Q : Option Buf → Fs → Prop} (hg : fs.Looked S g)
    (hk : g.Room t k) (hle : k' ≤ k)
    (h : fs.Stand n c r todo) (hj : j ≤ index)
    (hhit : r.inode ≠ 0 → j = index → ∀ out g', fs.Looked S g' → recAt out 0 = r → Q (some out) g')
    (hmiss : ¬ (r.inode ≠ 0 ∧ j = index) → g.Ends t (turnBlock pinode (c.skip r.recLen) >>= fun next =>
      seekEntry pinode index fuel (if r.inode ≠ 0 then j + 1 else j) next) k' Q) :
    g.Ends t (seekEntry pinode index (fuel + 1) j c) k' Q := by
  have hhere := h.here hw
  obtain ⟨hinode, hrec, -, hfits⟩ := hhere.fields
  have hroom := hhere.room
  have hsize : g.blockSize = fs.blockSize := congrArg Mem.blockSize hg.mem
  rw [seekEntry, pinode_length hm hw.dir hp, if_pos ⟨(h.coming.lt_iff hw hm).mpr (by simp), hj⟩]
  refine ends_needBytes (by omega) ?_
  rw [hinode, hrec]
  by_cases hhit' : r.inode ≠ 0 ∧ j = index
  · rw [if_pos hhit']
    refine (ends_takeEntry hw hg hk h).bind fun out g₁ hk₁ h₁ => ?_
    exact ends_pure (hk₁.mono hle) (hhit hhit'.1 hhit'.2 out g₁ h₁.1 h₁.2)
  · rw [if_neg hhit']
    exact hmiss hhit'

theorem ends_seekEntry (index k : ℕ) (todo : List DirRec) : ∀ (fuel j : ℕ) (c : Cursor) (r : DirRec) (g : Fs),
    fs.Looked S g →
    g.Room t (4 * (todo.length + 1) + k) → fs.Stand n c r todo → todo.length + 1 < fuel → j ≤ index →
    g.Ends t (seekEntry pinode index fuel j c) k fun res g' =>
      fs.Looked S g' ∧ res.map (recAt · 0) = ((r :: todo).filter (·.inode ≠ 0))[index - j]? := by
  induction todo with
  | nil =>
    intro fuel j c r g hg hk h hf hj
    obtain ⟨fuel, rfl⟩ : ∃ m, fuel = m + 2 := ⟨fuel - 2, by simp at hf; omega⟩
    refine ends_seekRound hm hw hp hg hk (by omega) h hj (fun hr he out g' hg' hout =>
      ⟨hg', by simp [hout, hr, he]⟩) fun hmiss => ?_
    refine (ends_turnBlock_last hm hg (hk.mono (show k + 4 ≤ _ by simp; omega)) _).bind fun c₁ g₁ hk₁ h₁ => ?_
    have hend := ((h.skip hw hm).lt_iff hw hm).not.mpr (by simp)
    rw [seekEntry, pinode_length hm hw.dir hp, h₁.2, if_neg (fun hc => hend hc.1)]
    refine ends_pure hk₁ ⟨h₁.1, ?_⟩
    by_cases hr : r.inode = 0
    · simp [hr]
    · have hlt : ¬ index - j = 0 := fun h0 => hmiss ⟨hr, by omega⟩
      simp [hr, hlt]
  | cons r' todo ih =>
    intro fuel j c r g hg hk h hf hj
    rw [length_cons] at hk hf
    obtain ⟨fuel, rfl⟩ := Nat.exists_eq_succ_of_ne_zero (Nat.ne_of_gt ((Nat.zero_le _).trans_lt hf))
    refine ends_seekRound hm hw hp hg hk (by omega) h hj (fun hr he out g' hg' hout =>
      ⟨hg', by simp [hout, hr, he]⟩) fun hmiss => ?_
    refine (ends_turnBlock hm hw hp hg (hk.mono (show 4 * (todo.length + 1) + k + 4 ≤ _ by omega))
      (h.skip hw hm)).bind fun c₁ g₁ hk₁ h₁ => ?_
    by_cases hr : r.inode = 0
    · rw [if_neg (not_not.mpr hr)]
      refine (ih fuel j c₁ r' g₁ h₁.1 hk₁ h₁.2 (by omega) hj).mono le_rfl fun res g' h' => ⟨h'.1, ?_⟩
      rw [h'.2, filter_cons_of_neg (a := r) (by simp [hr])]
    · have hlt : j + 1 ≤ index := Nat.lt_of_le_of_ne hj fun he => hmiss ⟨hr, he⟩
      rw [if_pos hr]
      refine (ih fuel (j + 1) c₁ r' g₁ h₁.1 hk₁ h₁.2 (by omega) hlt).mono le_rfl fun res g' h' => ⟨h'.1, ?_⟩
      rw [h'.2, filter_cons_of_pos (a := r) (by simp [hr]), show index - j = index - (j + 1) + 1 by omega]
      rfl

theorem ends_endRound {fuel : ℕ} {Q : DirEnd → Fs → Prop} {j : ℕ} (hg : fs.Looked S g)
    (hk : g.Room t (4 * (todo.length + 1) + k)) (hc : fs.Coming n c (r :: todo))
    (h : ∀ c' g', fs.Looked S g' → g'.Room t (4 * todo.length + k) → fs.Stand n c' r todo →
      g'.Ends t (if r.recLen ≠ r.need ∧ todo = [] then Pure.pure (.modify c'.dirOffset (c'.skip r.need))
        else seekEnd pinode fuel (c'.skip r.recLen)) j Q) :
    g.Ends t (seekEnd pinode (fuel + 1) c) j Q := by
  rw [seekEnd, pinode_length hm hw.dir hp, if_pos ((hc.lt_iff hw hm).mpr (by simp))]
  refine (ends_turnBlock hm hw hp hg (hk.mono (show 4 * todo.length + k + 4 ≤ _ by omega)) hc).bind
    fun c₁ g₁ hk₁ h₁ => ?_
  have hhere := h₁.2.here hw
  obtain ⟨-, hrec, -, hfits⟩ := hhere.fields
  have hroom := hhere.room
  have hlen := hhere.nameLen
  have hsize : g₁.blockSize = fs.blockSize := congrArg Mem.blockSize h₁.1.mem
  have hneed : c₁.sreclen = r.need := by rw [Cursor.sreclen, hlen, DirRec.need]
  refine ends_needBytes (by omega) (ends_needBytes (by omega) ?_)
  have hend : (c₁.totalOffset + r.recLen) % 2 ^ 32 = fs.dirBlocks n * fs.blockSize ↔ todo = [] :=
    (h₁.2.skip hw hm).eq_iff hw hm
  simp only [hrec, hneed, hend]
  exact h c₁ g₁ h₁.1 hk₁ h₁.2

/-- What the loop of `create_entry` makes of the last record. -/
def endAt (c : Cursor) (x : DirRec) : DirEnd :=
  if x.recLen ≠ x.need then .modify c.dirOffset (c.skip x.need) else .past (c.skip x.recLen)

theorem ends_seekEnd (k : ℕ) (todo : List DirRec) : ∀ (fuel : ℕ) (c : Cursor) (r : DirRec) (g : Fs),
    fs.Looked S g →
    g.Room t (4 * (todo.length + 1) + k) → fs.Coming n c (r :: todo) → todo.length + 1 < fuel →
    g.Ends t (seekEnd pinode fuel c) k fun res g' =>
      fs.Looked S g' ∧ ∃ c' x, (r :: todo).getLast? = some x ∧ fs.Stand n c' x [] ∧ res = endAt c' x := by
  induction todo with
  | nil =>
    intro fuel c r g hg hk hc hf
    obtain ⟨fuel, rfl⟩ : ∃ m, fuel = m + 2 := ⟨fuel - 2, by simp at hf; omega⟩
    refine ends_endRound hm hw hp hg hk hc fun c₁ g₁ hg₁ hk₁ hstand => ?_
    by_cases hne : r.recLen ≠ r.need
    · rw [if_pos ⟨hne, rfl⟩]
      exact ends_pure (hk₁.mono (by omega)) ⟨hg₁, c₁, r, rfl, hstand, (if_pos hne).symm⟩
    · have hend := ((hstand.skip hw hm).lt_iff hw hm).not.mpr (by simp)
      rw [if_neg (fun h => hne h.1), seekEnd, pinode_length hm hw.dir hp, if_neg hend]
      exact ends_pure (hk₁.mono (by omega)) ⟨hg₁, c₁, r, rfl, hstand, (if_neg hne).symm⟩
  | cons r' todo ih =>
    intro fuel c r g hg hk hc hf
    rw [length_cons] at hk hf
    obtain ⟨fuel, rfl⟩ := Nat.exists_eq_succ_of_ne_zero (Nat.ne_of_gt ((Nat.zero_le _).trans_lt hf))
    refine ends_endRound hm hw hp hg hk hc fun c₁ g₁ hg₁ hk₁ hstand => ?_
    rw [if_neg (fun h => by simp at h)]
    exact (ih fuel _ r' g₁ hg₁ hk₁ (hstand.skip hw hm) (by omega)).mono le_rfl fun res g' h => h

end Loops

end Fs

end ChiffOS.Ext2
