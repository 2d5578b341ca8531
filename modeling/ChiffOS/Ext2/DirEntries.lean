import ChiffOS.Ext2.DirWalk

/-! What the calls on a directory do with it: they look a name up, list the entries, remove one and enter
one. A call that writes changes the records of one block. -/

namespace ChiffOS.Ext2

open Buf Prog Tiling List

namespace Fs

variable {t : Prop} {S : ℕ → Prop} {fs g : Fs} {n l k b inode : ℕ} {buf : Buf} {name : List UInt8}
    {rs : List DirRec} {x : DirRec}

/-! ### One block of a directory -/

theorem Rewrote.block (hg : fs.Rewrote S b buf g) : SameOn (g.disk.blocks b) buf 0 fs.blockSize := by
  intro i _ hi
  simp only [disk]
  rw [congrArg Mem.blockSize hg.mem, hg.synced, take_in (by omega), drop_apply, writeFs,
    blit_in (by omega) (by omega),
    Nat.add_sub_cancel_left]

theorem Rewrote.other (hm : fs.Ready S) (hg : fs.Rewrote S b buf g) (hb : S b) {b' : ℕ} (hb' : S b')
    (hne : b' ≠ b) :
    g.disk.blocks b' = fs.disk.blocks b' := by
  refine block_eq hg.mem fun i hi => ?_
  rw [hg.synced]
  have hd := offsets_apart hm.sound.size (hm.sound.apart b' b hb' hb hne)
  exact blit_out (by omega)

theorem WellFormedDir.of_blocks (hw : fs.WellFormedDir S n) (hmem : g.toMem = fs.toMem)
    (hrec : g.disk.blocks (inodeSlot fs.toMem n).1 = fs.disk.blocks (inodeSlot fs.toMem n).1)
    (hnodes : ∀ l < fs.dirBlocks n, ∀ k ∈ spine fs.pointersPerBlock l,
      g.disk.blocks (k.block (fs.storedInode n) fs.disk.blocks) =
        fs.disk.blocks (k.block (fs.storedInode n) fs.disk.blocks))
    (hrows : ∀ l < fs.dirBlocks n, Row (g.dirData n l) fs.blockSize (g.dirRecords n l)) :
      g.WellFormedDir S n := by
  have hlen := dirBlocks_eq hmem hrec
  have hp : g.pointersPerBlock = fs.pointersPerBlock := congrArg Mem.pointersPerBlock hmem
  have hblock := fun l hl => dirBlock_eq (l := l) hmem hrec hnodes hl
  refine ⟨hw.dir.of_blocks hmem hrec hnodes, ?_, fun l hl l' hl' h => ?_, fun l hl => ?_,
    fun l hl l' hl' k hk => ?_, fun l hl => ?_⟩
  · rw [storedInode_eq hmem hrec]
    exact hw.mode
  · rw [hlen] at hl hl'
    rw [hblock l hl, hblock l' hl'] at h
    exact hw.inj l hl l' hl' h
  · rw [hlen] at hl
    rw [hmem, hblock l hl]
    exact hw.record l hl
  · rw [hlen] at hl hl'
    rw [hp] at hk
    rw [nodeBlock_eq hmem hrec hnodes hl' hk, hblock l hl]
    exact hw.nodes l hl l' hl' k hk
  · rw [hlen] at hl
    rw [congrArg Mem.blockSize hmem]
    exact hrows l hl

structure Changed (S : ℕ → Prop) (fs : Fs) (n l : ℕ) (rs : List DirRec) (g : Fs) : Prop where
  ready : g.Ready S
  dir : g.WellFormedDir S n
  blocks : g.dirBlocks n = fs.dirBlocks n
  row : g.dirRecords n l = rs
  same : ∀ l' < fs.dirBlocks n, l' ≠ l → g.dirRecords n l' = fs.dirRecords n l'

theorem Rewrote.changed (hm : fs.Ready S) (hw : fs.WellFormedDir S n) (hl : l < fs.dirBlocks n)
    (hg : fs.Rewrote S (fs.dirBlock n l) buf g) (hrow : Row buf fs.blockSize rs) : fs.Changed S n l rs g := by
  have hown := (hw.dir.blocks l hl).mem
  have hrec := hg.other hm hown hw.dir.record.mem (hw.record l hl)
  have hnodes := fun l' hl' k hk =>
    hg.other hm hown (hw.dir.nodes l' hl' k hk).mem (hw.nodes l hl l' hl' k hk)
  have hsize : g.blockSize = fs.blockSize := congrArg Mem.blockSize hg.mem
  have hother : ∀ l' < fs.dirBlocks n, l' ≠ l → g.dirData n l' = fs.dirData n l' := by
    intro l' hl' hne
    unfold dirData
    rw [dirBlock_eq hg.mem hrec hnodes hl']
    exact hg.other hm hown (hw.dir.blocks l' hl').mem fun h => hne (hw.inj l' hl' l hl h)
  have hnew : Row (g.dirData n l) fs.blockSize rs := by
    unfold dirData
    rw [dirBlock_eq hg.mem hrec hnodes hl]
    exact hrow.congr hg.block
  have hrs : g.dirRecords n l = rs := by
    unfold dirRecords
    rw [hsize]
    exact hnew.records
  have hsame : ∀ l' < fs.dirBlocks n, l' ≠ l → g.dirRecords n l' = fs.dirRecords n l' := by
    intro l' hl' hne
    unfold dirRecords
    rw [hother l' hl' hne, hsize]
  refine ⟨hm.of_mem hg.sound hg.mem, hw.of_blocks hg.mem hrec hnodes fun l' hl' => ?_,
    dirBlocks_eq hg.mem hrec, hrs, hsame⟩
  by_cases hne : l' = l
  · subst hne
    rw [hrs]
    exact hnew
  · rw [hother l' hl' hne, hsame l' hl' hne]
    exact hw.rows l' hl'

section Looked

variable (hg : fs.Looked S g)
include hg

theorem Looked.dirRecords (n : ℕ) : g.dirRecords n = fs.dirRecords n := by
  funext l
  unfold Fs.dirRecords dirData dirBlock storedInode
  rw [hg.disk, hg.mem]

theorem Looked.dirBlocks (n : ℕ) : g.dirBlocks n = fs.dirBlocks n := dirBlocks_eq hg.mem (by rw [hg.disk])

theorem Looked.allRecords (n : ℕ) : g.allRecords n = fs.allRecords n := by
  rw [Fs.allRecords, hg.dirBlocks, hg.dirRecords, Fs.allRecords]

theorem Looked.wellFormed (hw : fs.WellFormedDir S n) : g.WellFormedDir S n := by
  refine hw.of_blocks hg.mem (by rw [hg.disk]) (fun _ _ _ _ => by rw [hg.disk]) fun l hl => ?_
  rw [hg.dirRecords]
  unfold dirData dirBlock storedInode
  rw [hg.disk, hg.mem]
  exact hw.rows l hl

end Looked

theorem Changed.all (h : fs.Changed S n l rs g) (hl : l < fs.dirBlocks n) : ∃ before behind,
    fs.allRecords n = before ++ fs.dirRecords n l ++ behind ∧ g.allRecords n = before ++ rs ++ behind ∧
      (l + 1 = fs.dirBlocks n → behind = []) := by
  obtain ⟨m, hm⟩ := Nat.exists_eq_add_of_lt hl
  have hrange : List.range (fs.dirBlocks n) = List.range l ++ [l] ++ (List.range m).map (l + 1 + ·) := by
    rw [hm, show l + m + 1 = l + 1 + m by omega, range_add, range_succ]
  have hsame : ∀ ls : List ℕ, (∀ l' ∈ ls, l' < fs.dirBlocks n ∧ l' ≠ l) → ls.flatMap (g.dirRecords n) =
    ls.flatMap (fs.dirRecords n) := by
    intro ls hls
    rw [flatMap_def, flatMap_def, map_congr_left fun l' hl' => h.same l' (hls l' hl').1 (hls l' hl').2]
  refine ⟨(List.range l).flatMap (fs.dirRecords n),
    ((List.range m).map (l + 1 + ·)).flatMap (fs.dirRecords n), ?_, ?_, fun he => ?_⟩
  · rw [allRecords, hrange]
    simp
  · have hbefore := hsame (List.range l) fun l' hl' => by
      have := mem_range.mp hl'
      omega
    have hbehind := hsame ((List.range m).map (l + 1 + ·)) fun l' hl' => by
      obtain ⟨i, hi, rfl⟩ := mem_map.mp hl'
      have := mem_range.mp hi
      omega
    rw [allRecords, h.blocks, hrange, flatMap_append, flatMap_append, hbefore, hbehind, flatMap_singleton,
      h.row]
  · obtain rfl : m = 0 := by omega
    rfl

theorem seen_getLast (hm : fs.Ready S) (hw : fs.WellFormedDir S n) :
    (fs.seen n).getLast? = (fs.dirRecords n ((fs.dirBlocks n - 1) % 256)).getLast? := by
  obtain ⟨d, hd⟩ := Nat.exists_eq_succ_of_ne_zero (Nat.ne_of_gt hw.dir.pos)
  have hne := row_ne_nil hw hm (l := d) (by omega)
  rw [seen, hd, range_succ, flatMap_append, flatMap_singleton, Nat.succ_sub_one, List.getLast?_append]
  cases hlast : (fs.dirRecords n (d % 256)).getLast? with
  | none => exact absurd (List.getLast?_eq_none_iff.mp hlast) hne
  | some x => rfl

/-! ### The calls -/

theorem returns_sync (h : g.Awake k) : g.Returns Ext2.ext2Sync k := by
  refine ⟨(), g.ext2Sync, rfl, ?_⟩
  rcases Option.eq_none_or_eq_some g.diskCache with hdc | ⟨dc, hdc⟩
  · have hsame : g.ext2Sync = g := by simp [Fs.ext2Sync, hdc]
    rwa [hsame]
  · obtain ⟨h1, h2, h3⟩ := h dc hdc
    rw [ext2Sync_some hdc]
    intro dc' hdc'
    obtain rfl := Option.some.inj hdc'
    refine ⟨by simpa using h1, fun e he => ?_, h3⟩
    obtain ⟨e, hem, rfl⟩ := mem_map.mp he
    exact h2 e hem

section Blocks

variable (hm : fs.Ready S) (hd : fs.Directory S n)
include hm hd

theorem ends_record (hk : fs.Room t (k + 1)) : fs.Ends t (readInode n) k fun pinode g =>
    fs.Looked S g ∧ SameOn pinode (fs.storedInode n) 0 fs.inodeSize :=
  ⟨post_readInode hm.sound.looked hm hd.table hd.record.mem hd.record.ne, fun ht =>
    returns_readInode (hk ht) n⟩

theorem ends_writeDirBlock {pinode : Buf} (hp : SameOn pinode (fs.storedInode n) 0 fs.inodeSize)
    (hg : fs.Looked S g)
    (hk : g.Room t (k + 4)) (hl : l < fs.dirBlocks n) (buf : Buf) :
    g.Ends t (inodeWriteBlock pinode n l buf) k fun _ g' => fs.Rewrote S (fs.dirBlock n l) buf g' := by
  refine ⟨post_writeDirBlock hm hd hp hg hl buf, fun ht => returns_inodeWriteBlock (hk ht) (map_ok hm hg) ?_ n
    buf⟩
  have hcount : g.blocksOf pinode = fs.blocksOf (fs.storedInode n) := by
    unfold Mem.blocksOf
    rw [inodeBlocks_congr hp hm.sized.record, congrArg Mem.blockSize hg.mem]
  rw [hcount]
  exact hl.trans_le hd.counted

end Blocks

section Calls

variable (hm : fs.Ready S) (hw : fs.WellFormedDir S n)
include hm hw

theorem ends_finddirExt2 (hk : fs.Room t (4 * (fs.seen n).length + 6 + k)) (name : List UInt8) :
    fs.Ends t (finddirExt2 n name) k fun res g' => fs.Looked S g' ∧
      res.map (fun node => (node.name, node.inode)) = (live (fs.seen n)).find? (·.1 = name) := by
  refine (ends_record hm hw.dir (hk.mono (show 4 * (fs.seen n).length + 1 + k + 4 + 1 ≤ _ by omega))).bind
    fun pinode g₁ hk₁ h₁ => ?_
  refine (ends_openDir hm hw h₁.2 h₁.1 hk₁).bind fun c g₂ hk₂ h₂ => ?_
  obtain ⟨hg₂, r, todo, hseen, hstand⟩ := h₂
  refine (ends_searchEntry hm hw h₁.2 name (1 + k) (fs.seen n) _ c g₂ hg₂ (by rwa [← Nat.add_assoc])
    (hseen ▸ hstand.coming)
    hw.seen_length).bind fun res g₃ hk₃ h₃ => ?_
  cases res with
  | none => exact ends_pure (hk₃.mono (by omega)) ⟨h₃.1, (find_live_none h₃.2).symm⟩
  | some c =>
    obtain ⟨l, r, post, hseen, hno, his, hstand⟩ := h₃.2
    refine (ends_takeEntry hw h₃.1 hk₃ hstand).bind fun out g₄ hk₄ h₄ => ?_
    refine ends_malloc h₄.1 hk₄ fun _ g₅ hg₅ hk₅ => ?_
    refine (ends_looks (reading_readInode _) hg₅ fun ht =>
      returns_readInode (k := k) ((hk₅ ht).mono (by omega)) _).bind fun ino g₆ hk₆ hg₆ => ?_
    refine ends_pure hk₆ ⟨hg₆, ?_⟩
    rw [hseen, find_live hno his, ← h₄.2]
    rfl

theorem ends_readdirExt2 (hk : fs.Room t (4 * (fs.seen n).length + 5 + k)) (index : ℕ) :
    fs.Ends t (readdirExt2 n index) k fun res g' => fs.Looked S g' ∧
      res = ((live (fs.seen n))[index]?).map fun e => (e.2 % 2 ^ 16, e.1) := by
  refine (ends_record hm hw.dir (hk.mono (show 4 * (fs.seen n).length + k + 4 + 1 ≤ _ by omega))).bind
    fun pinode g₁ hk₁ h₁ => ?_
  refine (ends_openDir hm hw h₁.2 h₁.1 hk₁).bind fun c g₂ hk₂ h₂ => ?_
  obtain ⟨hg₂, r, todo, hseen, hstand⟩ := h₂
  have hlen := hw.seen_length
  rw [hseen] at hk₂ hlen
  refine (ends_seekEntry hm hw h₁.2 index k todo _ 0 c r g₂ hg₂ hk₂ hstand hlen (Nat.zero_le _)).bind
    fun res g₃ hk₃ h₃ => ?_
  obtain ⟨hg₃, hres⟩ := h₃
  rw [hseen, live, List.getElem?_map, ← Nat.sub_zero index, ← hres]
  cases res with
  | none => exact ends_pure hk₃ ⟨hg₃, rfl⟩
  | some out => exact ends_malloc hg₃ hk₃ fun _ g₄ hg₄ hk₄ => ends_pure hk₄ ⟨hg₄, rfl⟩

theorem ends_unlinkExt2 (hk : fs.Room t (4 * (fs.seen n).length + 9 + k)) (name : List UInt8) :
    fs.Ends t (unlinkExt2 n name) k fun _ g' => (∀ r ∈ fs.seen n, ¬ r.Is name) ∧ fs.Looked S g' ∨
      ∃ l < fs.dirBlocks n, ∃ before r rs, fs.dirRecords n (l % 256) = before ++ r :: rs ∧ r.Is name ∧
        fs.Changed S n (l % 256) (before ++ { r with inode := 0 } :: rs) g' := by
  refine (ends_record hm hw.dir (hk.mono (show 4 * (fs.seen n).length + (k + 4) + 4 + 1 ≤ _ by omega))).bind
    fun pinode g₁ hk₁ h₁ => ?_
  refine (ends_openDir hm hw h₁.2 h₁.1 hk₁).bind fun c g₂ hk₂ h₂ => ?_
  obtain ⟨hg₂, r, todo, hseen, hstand⟩ := h₂
  refine (ends_searchEntry hm hw h₁.2 name (k + 4) (fs.seen n) _ c g₂ hg₂ hk₂ (hseen ▸ hstand.coming)
    hw.seen_length).bind fun res g₃ hk₃ h₃ => ?_
  cases res with
  | none => exact ends_pure (hk₃.mono (by omega)) (.inl ⟨h₃.2, h₃.1⟩)
  | some c =>
    obtain ⟨-, r, -, -, -, his, l, before, rs, hpos, -⟩ := h₃.2
    have hl : l % 256 < fs.dirBlocks n := (Nat.mod_le _ _).trans_lt hpos.lt
    dsimp only
    rw [hpos.nr]
    refine (ends_writeDirBlock hm hw.dir h₁.2 h₃.1 hk₃ hl _).bind fun _ g₄ hk₄ h₄ => ?_
    refine ⟨Post.ask fun _ g₅ hr => .inr ⟨l, hpos.lt, before, r, rs, hpos.row, his, ?_⟩, fun ht =>
      returns_sync (hk₄ ht)⟩
    obtain ⟨-, rfl⟩ := Prod.mk.inj (Option.some.inj hr)
    have hsync := h₄.sound.sync
    have hrow := hw.row_mod hpos.lt
    rw [hpos.row] at hrow
    have hfree := (hrow.congr hpos.block).free
    rw [← hpos.offset] at hfree
    exact Rewrote.changed hm hw hl ⟨hsync.sound, hsync.mem.trans h₄.mem, hsync.synced.trans h₄.synced⟩ hfree

theorem ends_enterEntry {j inode : ℕ} {Q : Entered → Fs → Prop}
    (hk : fs.Room t (4 * (fs.seen n).length + 5 + k)) (name : List UInt8)
    (h : ∀ pinode g c x, SameOn pinode (fs.storedInode n) 0 fs.inodeSize → fs.Looked S g → g.Room t k →
      (fs.seen n).getLast? = some x → fs.Stand n c x [] →
        (x.recLen = x.need → g.Ends t (storeEntryAt pinode n (c.skip x.recLen) c.block name inode) j Q) ∧
        (x.recLen ≠ x.need →
          g.Ends t (if (c.skip x.need).dirOffset + recordLen name.length ≥ fs.blockSize then Pure.pure .noRoom
          else storeEntryAt pinode n (c.skip x.need)
            (c.block.setU16 (c.dirOffset + 4) (recordLen (entNameLen c.block c.dirOffset)))
            name inode) j Q)) :
    fs.Ends t (enterEntry n name inode) j Q := by
  refine ends_this ?_
  refine (ends_record hm hw.dir (hk.mono (show 4 * (fs.seen n).length + k + 4 + 1 ≤ _ by omega))).bind
    fun pinode g₁ hk₁ h₁ => ?_
  have hmode : inodeMode pinode = inodeMode (fs.storedInode n) :=
    u16_congr (h₁.2.mono le_rfl (by have := hm.sized.record; omega))
  rw [hmode, if_neg hw.mode]
  refine (ends_openDir hm hw h₁.2 h₁.1 hk₁).bind fun c g₂ hk₂ h₂ => ?_
  obtain ⟨hg₂, r, todo, hseen, hstand⟩ := h₂
  have hlen := hw.seen_length
  rw [hseen] at hk₂ hlen
  refine (ends_seekEnd hm hw h₁.2 k todo _ c r g₂ hg₂ hk₂ hstand.coming hlen).bind fun res g₃ hk₃ h₃ => ?_
  obtain ⟨hg₃, c', x, hlast, hstand', rfl⟩ := h₃
  obtain ⟨hpast, hmodify⟩ := h pinode g₃ c' x h₁.2 hg₃ hk₃ (hseen ▸ hlast) hstand'
  by_cases hne : x.recLen ≠ x.need
  · rw [show endAt c' x = _ from if_pos hne]
    exact hmodify hne
  · rw [show endAt c' x = _ from if_neg hne]
    exact hpast (not_not.mp hne)

/-- Behind a last record that fills its block there is no place in the buffer. -/
theorem enterEntry_past (hlast : (fs.seen n).getLast? = some x) (hx : x.recLen = x.need) (name : List UInt8)
    (inode : ℕ) :
    Post fsHandler (enterEntry n name inode) fs fun _ _ => False := by
  refine (ends_enterEntry hm hw (t := False) (k := 0) (j := 0)
    nofun name fun pinode g c y hp hg hk hy hstand => ?_).post
  obtain rfl := Option.some.inj (hlast.symm.trans hy)
  refine ⟨fun _ => ⟨post_this (.ite (fun _ => post_undefined) fun hle => ?_), nofun⟩, fun hne =>
    absurd hx hne⟩
  have hend := hstand.block_end hw hm
  have hskip := hstand.skip_need hw hm hx.ge
  have hsize : g.blockSize = fs.blockSize := congrArg Mem.blockSize hg.mem
  rw [hx, hskip] at hle
  omega

theorem ends_enterEntry_full (hk : fs.Room t (4 * (fs.seen n).length + 5 + k))
    (hlast : (fs.seen n).getLast? = some x)
    (hx : x.need < x.recLen) (hfull : x.recLen ≤ x.need + recordLen name.length) (inode : ℕ) :
    fs.Ends t (enterEntry n name inode) k fun e g => e = .noRoom ∧ fs.Looked S g := by
  refine ends_enterEntry hm hw hk name fun pinode g c y hp hg hk hy hstand => ?_
  obtain rfl := Option.some.inj (hlast.symm.trans hy)
  refine ⟨fun he => absurd he (Nat.ne_of_gt hx), fun _ => ?_⟩
  have hend := hstand.block_end hw hm
  have hskip := hstand.skip_need hw hm hx.le
  rw [if_pos (by omega)]
  exact ends_pure hk ⟨rfl, hg⟩

theorem ends_enterEntry_room (hk : fs.Room t (4 * (fs.seen n).length + 9 + k))
    (hlast : (fs.seen n).getLast? = some x)
    (hroom : x.need + recordLen name.length < x.recLen) (inode : ℕ) :
    fs.Ends t (enterEntry n name inode) k fun e g => e = .written ∧ ∃ before buf,
      fs.dirRecords n ((fs.dirBlocks n - 1) % 256) = before ++ [x] ∧
      fs.Rewrote S (fs.dirBlock n ((fs.dirBlocks n - 1) % 256)) buf g ∧
      (∃ i < fs.blockSize, buf i ≠ fs.dirData n ((fs.dirBlocks n - 1) % 256) i) ∧
      (inode < 2 ^ 32 → name.length < 256 →
        Row buf fs.blockSize
          (before ++ [{ x with recLen := x.need }, ⟨inode, x.recLen - x.need, name⟩])) := by
  refine ends_enterEntry hm hw (k := k + 4) (hk.mono (by omega)) name fun pinode g c y hp hg hk hy hstand =>
    ?_
  obtain rfl := Option.some.inj (hlast.symm.trans hy)
  refine ⟨fun he => absurd he (by omega), fun hne => ?_⟩
  have hend := hstand.block_end hw hm
  have hskip := hstand.skip_need hw hm (by omega)
  have hhere := hstand.here hw
  have hneed : recordLen (entNameLen c.block c.dirOffset) = x.need := congrArg recordLen hhere.nameLen
  obtain ⟨before, hrow, hnr, hoff, hblock⟩ := hstand.last hw hm
  have hsize : g.blockSize = fs.blockSize := congrArg Mem.blockSize hg.mem
  have hnew := (recordLen_spec name.length).2
  have hl := hw.last_lt
  rw [if_neg (by omega)]
  refine ends_this ?_
  rw [if_neg (by omega), hskip, hneed, hsize]
  set buf := Ext2.setEntry (c.block.setU16 (c.dirOffset + 4) x.need) (c.dirOffset + x.need) inode
    (fs.blockSize - (c.dirOffset + x.need)) name
    with hbuf
  rw [show (c.skip x.need).blockNr = _ from hnr]
  refine (ends_writeDirBlock hm hw.dir hp hg hk hl buf).bind fun _ g₁ hk₁ h₁ =>
    ends_pure hk₁ ⟨rfl, before, buf, hrow, h₁, ?_, ?_⟩
  · have hrec : entRecLen c.block c.dirOffset = x.recLen := hhere.fields.2.1
    have h8 := (recordLen_spec x.name.length).2
    rw [hbuf, ← hneed]
    exact entry_changes (by change 8 + _ ≤ x.need at h8; omega) hblock (by rwa [hrec, hneed])
  · intro hi hn
    have hfull := hw.rows _ hl
    rw [hrow] at hfull
    have hins := (hfull.congr hblock).insert hm.size_le hi hn hroom.le
    rwa [← hoff, ← hbuf, show fs.blockSize - (c.dirOffset + x.need) = x.recLen - x.need by omega] at hins

end Calls

end Fs

end ChiffOS.Ext2
