import ChiffOS.Ext2.DirEntries

/-! The listing of a directory under the calls. `create_entry` puts an entry behind the last one and says
that there is no space, whether it did or not. `unlink_ext2` frees an entry, and nothing ever takes its
place. -/

namespace ChiffOS.Ext2

open Buf Prog Tiling List Option

namespace Fs

variable {t : Prop} {S : ℕ → Prop} {fs g : Fs} {n l k inode : ℕ} {name : List UInt8} {x : DirRec} {e : Err}

def Finds (fs : Fs) (n : ℕ) (name : List UInt8) (r : Option (List UInt8 × ℕ)) : Prop :=
  ∃ node g, (finddirExt2 n name).run fsHandler fs = some (node, g) ∧ node.map (fun m => (m.name, m.inode)) = r

def copies (fs : Fs) (n : ℕ) (name : List UInt8) (inode : ℕ) : ℕ := (fs.allRecords n).countP fun r => r.name =
    name ∧ r.inode = inode

def Stored (fs g : Fs) (n : ℕ) (name : List UInt8) (inode : ℕ) : Prop :=
    fs.copies n name inode < g.copies n name inode

theorem Stored.name_lt (h : fs.Stored g n name inode) : name.length < 256 := by
  obtain ⟨r, hr, hname⟩ := countP_pos_iff.mp ((Nat.zero_le _).trans_lt h)
  obtain ⟨l, -, hr⟩ := mem_flatMap.mp hr
  obtain ⟨rfl, -⟩ : r.name = name ∧ r.inode = inode := by simpa using hname
  exact Ext2.name_lt hr

theorem Looked.not_stored (h : fs.Looked S g) : ¬ fs.Stored g n name inode := by
  unfold Stored copies
  rw [h.allRecords]
  exact lt_irrefl _

theorem Changed.stored {before : List DirRec}
    (h : fs.Changed S n l (before ++ [{ x with recLen := x.need }, ⟨inode, k, name⟩]) g)
    (hl : l < fs.dirBlocks n) (hrow : fs.dirRecords n l = before ++ [x]) : fs.Stored g n name inode := by
  obtain ⟨a, b, h1, h2, -⟩ := h.all hl
  unfold Stored copies
  rw [h1, h2, hrow]
  simp only [countP_append, countP_cons, countP_nil, and_self, decide_true, if_true]
  omega

section Entering

variable (hm : fs.Ready S) (hw : fs.WellFormedDir S n)
include hm hw

theorem exists_last : ∃ x, (fs.seen n).getLast? = some x ∧ x.need ≤ x.recLen := by
  rw [seen_getLast hm hw]
  have hne := row_ne_nil hw hm (Nat.sub_lt hw.dir.pos one_pos)
  refine ⟨_, List.getLast?_eq_some_getLast hne, ?_⟩
  exact ((hw.rows _ hw.last_lt).fits _ (getLast_mem hne)).need_le

omit hm hw in
theorem createEntry_run {g : Fs} (hrun : (createEntry n name inode).run fsHandler fs = some (e, g)) :
    ∃ r, (enterEntry n name inode).run fsHandler fs = some (r, g) ∧ (r ≠ .badParent → e = .noSpace) := by
  rw [createEntry, run_bind] at hrun
  obtain ⟨⟨r, g₁⟩, hr, hrest⟩ := bind_eq_some_iff.mp hrun
  cases r <;> obtain ⟨rfl, rfl⟩ := Prod.mk.inj (some.inj hrest) <;> exact ⟨_, hr, by simp⟩

theorem enterEntry_outcome {r : Entered} (hrun : (enterEntry n name inode).run fsHandler fs = some (r, g)) :
    ∃ x, (fs.seen n).getLast? = some x ∧
      (r = .noRoom ∧ x.need < x.recLen ∧ x.recLen ≤ x.need + recordLen name.length ∧ fs.Looked S g ∨
      r = .written ∧ x.need + recordLen name.length < x.recLen) := by
  obtain ⟨x, hlast, hle⟩ := exists_last hm hw
  refine ⟨x, hlast, ?_⟩
  rcases Nat.eq_or_lt_of_le hle with heq | hlt
  · exact (enterEntry_past hm hw hlast heq.symm name inode _ _ hrun).elim
  by_cases hroom : x.need + recordLen name.length < x.recLen
  · obtain ⟨rfl, -⟩ :=
      (ends_enterEntry_room hm hw (t := False) (k := 0) nofun hlast hroom inode).post _ _ hrun
    exact .inr ⟨rfl, hroom⟩
  · obtain ⟨rfl, hg⟩ :=
      (ends_enterEntry_full hm hw (t := False) (k := 0)
      nofun hlast hlt (Nat.not_lt.mp hroom) inode).post _ _ hrun
    exact .inl ⟨rfl, hlt, Nat.not_lt.mp hroom, hg⟩

omit hm hw in
theorem ends_createEntry {Q : Entered → Fs → Prop} (h : fs.Ends t (enterEntry n name inode) k Q)
    (hQ : ∀ r g, Q r g → r ≠ .badParent) :
    fs.Ends t (createEntry n name inode) k fun e g => e = .noSpace ∧ ∃ r, Q r g := by
  refine h.bind fun r g hk hr => ?_
  cases r with
  | badParent => exact absurd rfl (hQ _ _ hr)
  | noRoom => exact ends_pure hk ⟨rfl, _, hr⟩
  | written => exact ends_pure hk ⟨rfl, _, hr⟩

theorem ends_createEntry_room (name : List UInt8) (hk : fs.Room t (4 * (fs.seen n).length + 9 + k))
    (hlast : (fs.seen n).getLast? = some x)
    (hroom : x.need + recordLen name.length < x.recLen) (hi : inode < 2 ^ 32) (hn : name.length < 256) :
    fs.Ends t (createEntry n name inode) k fun e g => e = .noSpace ∧ ∃ before,
      fs.dirRecords n ((fs.dirBlocks n - 1) % 256) = before ++ [x] ∧
        fs.Changed S n ((fs.dirBlocks n - 1) % 256)
        (before ++ [{ x with recLen := x.need }, ⟨inode, x.recLen - x.need, name⟩]) g := by
  refine (ends_createEntry (ends_enterEntry_room hm hw hk hlast hroom inode) ?_).mono le_rfl ?_
  · rintro _ g ⟨rfl, -⟩
    simp
  · rintro e g ⟨he, _, -, before, buf, hrow, hg, -, hbuf⟩
    exact ⟨he, before, hrow, hg.changed hm hw hw.last_lt (hbuf hi hn)⟩

theorem finds_iff (hk : fs.Awake (4 * (fs.seen n).length + 6)) (name : List UInt8)
    (r : Option (List UInt8 × ℕ)) :
    fs.Finds n name r ↔ r = (live (fs.seen n)).find? (·.1 = name) := by
  obtain ⟨node, g, hr, ⟨-, h⟩, -⟩ := (ends_finddirExt2 hm hw (t := True) (k := 0) (fun _ => hk) name).run
  constructor
  · rintro ⟨node', g', hr', rfl⟩
    obtain ⟨rfl, -⟩ := Prod.mk.inj (some.inj (hr.symm.trans hr'))
    exact h
  · rintro rfl
    exact ⟨node, g, hr, h⟩

end Entering

/-! ### A directory of equal blocks -/

/-- Two entries, the last with an unused tail of `tail` bytes. -/
def rowOf (tail inode : ℕ) (name : UInt8) : Buf :=
  Ext2.setEntry (Ext2.setEntry (fun _ => 0) 0 inode (1012 - tail) [name]) (1012 - tail) 3 (12 + tail) [0x67]

/-- A volume of 8192 inodes a group, all in use, whose root directory has the `d` blocks from 20 on; block
300 is the indirect block. -/
def rowFs (d tail inode : ℕ) : Fs where
  superblock := setU32 (fun _ => 0) 32 8192
  blockGroups := ((setU32 (fun _ => 0) 0 3).setU32 4 4).setU32 8 5
  blockSize := 1024
  pointersPerBlock := 256
  inodesPerGroup := 8192
  blockGroupCount := 9
  bgdBlockSpan := 1
  bgdOffset := 2
  inodeSize := 128
  blockDevice := fun a =>
    if a / 1024 = 5 then
      (((((setU16 (fun _ => 0) 128 0x41ED).setU32 132 (1024 * d)).setU32 156 (2 * d)).blit 168
        (fun i => UInt8.ofNat ((20 + i / 4) / 256 ^ (i % 4))) 48).setU32 216 300) (a % 1024)
    else if a / 1024 = 300 then UInt8.ofNat ((32 + a % 1024 / 4) / 256 ^ (a % 4))
    else if 20 ≤ a / 1024 ∧ a / 1024 < 20 + d then rowOf tail inode (if a / 1024 = 276 then 0x7A else 0x66)
      (a % 1024)
    else if a / 1024 = 3 ∨ a / 1024 = 4 then 0xFF else 0
  diskCache := none
  cacheTime := 0
  heap := fun _ _ => 0

def rowBlocks (d b : ℕ) : Prop := b = 5 ∨ b = 300 ∨ 20 ≤ b ∧ b < 20 + d

/-- What there is to look at in one of these volumes. -/
structure RowOk (d tail inode : ℕ) : Prop where
  pos : 0 < d
  le : d ≤ 257
  tail_le : tail ≤ 1000
  aligned : 4 ∣ tail
  slots : inodeSlot (rowFs d tail inode).toMem 2 = (5, 128) ∧ inodeSlot (rowFs d tail inode).toMem 0 =
    (4194308, 896)
  mode : inodeMode ((rowFs d tail inode).storedInode 2) &&& sIfdir ≠ 0
  length : inodeLength ((rowFs d tail inode).storedInode 2) = d * 1024
  counted : (rowFs d tail inode).blocksOf ((rowFs d tail inode).storedInode 2) = d
  single : Node.single.block ((rowFs d tail inode).storedInode 2) (rowFs d tail inode).disk.blocks = 300
  leaves : ∀ l < d, (rowFs d tail inode).dirBlock 2 l = 20 + l
  first : ∀ l < d, recAt ((rowFs d tail inode).dirData 2 l) 0 =
    ⟨inode, 1012 - tail, [if l = 256 then 0x7A else 0x66]⟩
  last : ∀ l < d, recAt ((rowFs d tail inode).dirData 2 l) (1012 - tail) = ⟨3, 12 + tail, [0x67]⟩

theorem rowFs_ready {d tail : ℕ} (hle : d ≤ 257) : (rowFs d tail inode).Ready (rowBlocks d) := by
  have hsize : 1024 ∣ 2 ^ 32 := by decide
  refine ⟨⟨hsize, (by decide : 128 ∣ 1024), le_rfl, le_rfl⟩, (by decide : 1024 ≤ 65536),
    (by decide : 0 < 256), ⟨hsize, ?_, nofun⟩⟩
  intro a b ha hb hne
  change a * 1024 % 2 ^ 32 ≠ b * 1024 % 2 ^ 32
  unfold rowBlocks at ha hb
  omega

namespace RowOk

variable {d tail : ℕ} (h : RowOk d tail inode)
include h

theorem ready : (rowFs d tail inode).Ready (rowBlocks d) := rowFs_ready h.le

theorem row {l : ℕ} (hl : l < d) : Row ((rowFs d tail inode).dirData 2 l) 1024
    [⟨inode, 1012 - tail, [if l = 256 then 0x7A else 0x66]⟩, ⟨3, 12 + tail, [0x67]⟩] := by
  have h1 := h.tail_le
  have h2 := h.aligned
  refine ⟨⟨h.first l hl, by change 0 < 1012 - tail; omega, ?_, by change 0 < 12 + tail; omega, ?_⟩,
    fun r hr => ?_⟩
  · rw [Nat.zero_add]
    exact h.last l hl
  · change 0 + (1012 - tail) + (12 + tail) = 1024
    omega
  · simp only [mem_cons, not_mem_nil, or_false] at hr
    rcases hr with rfl | rfl
    · exact ⟨by change 4 ∣ 1012 - tail; omega, by change 8 + 1 ≤ 1012 - tail; omega⟩
    · exact ⟨by change 4 ∣ 12 + tail; omega, by change 8 + 1 ≤ 12 + tail; omega⟩

theorem records {l : ℕ} (hl : l < d) : (rowFs d tail inode).dirRecords 2 l =
    [⟨inode, 1012 - tail, [if l = 256 then 0x7A else 0x66]⟩, ⟨3, 12 + tail, [0x67]⟩] := (h.row hl).records

theorem blocks : (rowFs d tail inode).dirBlocks 2 = d := by
  unfold dirBlocks
  rw [h.length]
  exact Nat.mul_div_cancel d (by norm_num)

theorem own {b : ℕ} (hb : rowBlocks d b) : (rowFs d tail inode).Own (rowBlocks d) b := by
  have hle := h.le
  unfold rowBlocks at hb
  refine ⟨hb, by omega, ?_⟩
  rw [strayBlock, h.slots.2]
  dsimp only
  omega

theorem node {l : ℕ} (hl : l < d) {k : Node} (hk : k ∈ spine 256 l) :
    k.block ((rowFs d tail inode).storedInode 2) (rowFs d tail inode).disk.blocks = 300 := by
  have hle := h.le
  by_cases hdirect : l < 12
  · rw [spine_direct hdirect] at hk
    simp at hk
  · obtain rfl : k = .single := by
      simpa [spine, place, hdirect, show l < 268 by omega, Slot.spine, Node.above] using hk
    exact h.single

theorem wellFormed : (rowFs d tail inode).WellFormedDir (rowBlocks d) 2 := by
  have hle := h.le
  have hslot : (inodeSlot (rowFs d tail inode).toMem 2).1 = 5 := congrArg Prod.fst h.slots.1
  refine ⟨⟨(by decide : 2 / 8192 ≤ 9), ?_, ?_, ?_, ?_, fun l hl k hk => ?_, fun l hl => ?_⟩, h.mode,
    fun l hl l' hl' he => ?_, fun l hl => ?_,
    fun l hl l' hl' k hk => ?_, fun l hl => ?_⟩
  · rw [hslot]
    exact h.own (by unfold rowBlocks; omega)
  · rw [h.blocks]
    exact h.length
  · rw [h.blocks]
    exact h.pos
  · rw [h.blocks, h.counted]
  · rw [h.blocks] at hl
    rw [h.node hl hk]
    exact h.own (by unfold rowBlocks; omega)
  · rw [h.blocks] at hl
    rw [h.leaves l hl]
    exact h.own (by unfold rowBlocks; omega)
  · rw [h.blocks] at hl hl'
    rw [h.leaves l hl, h.leaves l' hl'] at he
    omega
  · rw [h.blocks] at hl
    rw [hslot, h.leaves l hl]
    omega
  · rw [h.blocks] at hl hl'
    rw [h.node hl' hk, h.leaves l hl]
    omega
  · rw [h.blocks] at hl
    rw [h.records hl]
    exact h.row hl

omit h in
theorem all (h : RowOk 1 tail inode) : (rowFs 1 tail inode).allRecords 2 =
    [⟨inode, 1012 - tail, [0x66]⟩, ⟨3, 12 + tail, [0x67]⟩] := by
  rw [allRecords, h.blocks, range_one, flatMap_singleton, h.records one_pos]
  rfl

omit h in
theorem seen (h : RowOk 1 tail inode) : (rowFs 1 tail inode).seen 2 =
    [⟨inode, 1012 - tail, [0x66]⟩, ⟨3, 12 + tail, [0x67]⟩] := by
  rw [seen_eq_all (by rw [h.blocks]; norm_num), h.all]

omit h in
theorem awake (d tail inode k : ℕ) : (rowFs d tail inode).Awake k := nofun

end RowOk

theorem rowOk_room : RowOk 1 1000 3 := by
  constructor <;> decide +kernel

/-! ### Inserting -/

/-- In a directory of at most 255 blocks a new name whose entry is shorter than the unused tail of the last
entry comes behind the others, where it is found, and the other names are found as before. -/
theorem createEntry_inserts (hm : fs.Ready S) (hw : fs.WellFormedDir S n) (hblocks : fs.dirBlocks n ≤ 255)
    (hname : 1 ≤ name.length ∧ name.length ≤ 255) (hnew : name ∉ (fs.listing n).map Prod.fst)
    (hi : inode ≠ 0 ∧ inode < 2 ^ 32)
    (hlast : (fs.allRecords n).getLast? = some x) (htail : recordLen name.length < x.recLen - x.need)
    (hk : fs.Awake (8 * (fs.allRecords n).length + 19)) :
    ∃ e g, (createEntry n name inode).run fsHandler fs = some (e, g) ∧ g.WellFormedDir S n ∧
      g.listing n = fs.listing n ++ [(name, inode)] ∧ g.Finds n name (some (name, inode)) ∧
      ∀ other, other ≠ name → ∀ r, g.Finds n other r ↔ fs.Finds n other r := by
  have hseen : fs.seen n = fs.allRecords n := seen_eq_all (by omega)
  rw [← hseen] at hlast hk
  have hk₁ : fs.Awake (4 * (fs.seen n).length + 9 + (4 * ((fs.seen n).length + 1) + 6)) := hk.mono (by omega)
  obtain ⟨e, g, hrun, ⟨-, before, hrow, hg⟩, hkg⟩ :=
    (ends_createEntry_room hm hw (t := True) name (fun _ => hk₁) hlast (by omega) hi.2 (by omega)).run
  have hpos := hw.dir.pos
  rw [Nat.mod_eq_of_lt (by omega)] at hrow hg
  obtain ⟨a, b, h1, h2, hb⟩ := hg.all (by omega)
  obtain rfl := hb (by omega)
  rw [hrow] at h1
  have hseeng : g.seen n = g.allRecords n := seen_eq_all (by have := hg.blocks; omega)
  have hlisting : g.listing n = fs.listing n ++ [(name, inode)] := by
    rw [listing, listing, h1, h2]
    simp only [live_append, append_nil]
    have hx : live [{ x with recLen := x.need }, ⟨inode, x.recLen - x.need, name⟩] =
      live [x] ++ [(name, inode)] := by
      by_cases h0 : x.inode = 0
      · simp [live, h0, hi.1]
      · simp [live, h0, hi.1]
    rw [hx]
    simp
  have hlen : (g.seen n).length = (fs.seen n).length + 1 := by
    rw [hseeng, hseen, h1, h2]
    simp
    omega
  have hfs := finds_iff hm hw (hk.mono (by omega))
  have hgs := finds_iff hg.ready hg.dir (by rw [hlen]; exact hkg)
  have hlive : live (g.seen n) = live (fs.seen n) ++ [(name, inode)] := by
    rw [hseeng, hseen]
    exact hlisting
  refine ⟨e, g, hrun, hg.dir, hlisting, ?_, fun other hne r => ?_⟩
  · rw [hgs, hlive, List.find?_append, List.find?_eq_none.mpr]
    · simp
    · intro p hp
      rw [hseen] at hp
      simpa using fun h => hnew (mem_map.mpr ⟨p, hp, h⟩)
  · rw [hgs, hfs, hlive, List.find?_append]
    simp [Ne.symm hne]

theorem createEntry_inserts_z : ∃ e g, (createEntry 2 [0x7A] 4).run fsHandler (rowFs 1 1000 3) = some (e, g) ∧
    g.listing 2 = [([0x66], 3), ([0x67], 3), ([0x7A], 4)] ∧ g.Finds 2 [0x7A] (some ([0x7A], 4)) := by
  have h := rowOk_room
  have hlisting : (rowFs 1 1000 3).listing 2 = [([0x66], 3), ([0x67], 3)] := by
    rw [listing, h.all]
    decide
  obtain ⟨e, g, hrun, -, hnew, hfind, -⟩ := createEntry_inserts (x := ⟨3, 1012, [0x67]⟩) h.ready h.wellFormed
    (by rw [h.blocks]; norm_num) (by decide : 1 ≤ [(0x7A : UInt8)].length ∧ [(0x7A : UInt8)].length ≤ 255)
      (by rw [hlisting]; decide)
    (by decide : 4 ≠ 0 ∧ 4 < 2 ^ 32) (by rw [h.all]; rfl) (by decide) (RowOk.awake _ _ _ _)
  exact ⟨e, g, hrun, hnew.trans (by rw [hlisting]; rfl), hfind⟩

/-! ### What is reported -/

/-- The new entry has a name of the format and a place behind the last entry. -/
def TailFits (fs : Fs) (n : ℕ) (name : List UInt8) : Prop :=
  name.length ≤ 255 ∧ ∃ x, (fs.allRecords n).getLast? = some x ∧ x.need + recordLen name.length ≤ x.recLen

/-- `create_entry` reports success if the entry was stored and only then; where the entry does not fit, it
reports that and leaves the blocks of the directory. -/
structure Truthful (fs : Fs) (n : ℕ) (name : List UInt8) (inode : ℕ) (e : Err) (g : Fs) : Prop where
  code : e = .success ↔ fs.Stored g n name inode
  full : ¬ fs.TailFits n name → e = .noSpace ∧ ∀ l < fs.dirBlocks n, g.disk.blocks (fs.dirBlock n l) =
    fs.disk.blocks (fs.dirBlock n l)

/-- The report is right exactly if the last entry that the loop comes to has an unused tail which is too
short. -/
theorem createEntry_truthful_iff (hm : fs.Ready S) (hw : fs.WellFormedDir S n) (name : List UInt8)
    (hi : inode < 2 ^ 32)
    (hk : fs.Awake (4 * (fs.seen n).length + 5)) :
    (∃ e g, (createEntry n name inode).run fsHandler fs = some (e, g) ∧ fs.Truthful n name inode e g) ↔
      ∃ x, (fs.seen n).getLast? = some x ∧ x.need < x.recLen ∧ x.recLen ≤ x.need + recordLen name.length := by
  constructor
  · rintro ⟨e, g, hrun, htrue⟩
    obtain ⟨r, hr, he⟩ := createEntry_run hrun
    obtain ⟨x, hlast, ⟨-, h1, h2, -⟩ | ⟨rfl, hroom⟩⟩ := enterEntry_outcome hm hw hr
    · exact ⟨x, hlast, h1, h2⟩
    obtain rfl := he (by simp)
    obtain ⟨-, before, buf, hrow, hg, ⟨i, hi', hne⟩, hbuf⟩ :=
      (ends_enterEntry_room hm hw (t := False) (k := 0) nofun hlast hroom inode).post _ _ hr
    by_cases hn : name.length < 256
    · have hst := (hg.changed hm hw hw.last_lt (hbuf hi hn)).stored hw.last_lt hrow
      exact absurd (htrue.code.mpr hst) (by simp)
    · have hsame := (htrue.full fun h => hn (Nat.lt_succ_of_le h.1)).2 _ hw.last_lt
      refine absurd ?_ hne
      rw [← hg.block i (Nat.zero_le _) (by omega), hsame]
      rfl
  · rintro ⟨x, hlast, h1, h2⟩
    obtain ⟨e, g, hrun, ⟨rfl, _, -, hg⟩, -⟩ := (ends_createEntry
      (ends_enterEntry_full hm hw (t := True) (k := 0) (fun _ => hk) hlast h1 h2 inode)
        (by rintro _ _ ⟨rfl, -⟩; simp)).run
    refine ⟨_, g, hrun, ⟨iff_of_false (by simp) hg.not_stored, fun _ => ⟨rfl, fun l _ => ?_⟩⟩⟩
    rw [hg.disk]

theorem createEntry_truthful_full : ∃ e g, (createEntry 2 [0x7A] 4).run fsHandler (rowFs 1 12 3) =
    some (e, g) ∧
    (rowFs 1 12 3).Truthful 2 [0x7A] 4 e g := by
  have h : RowOk 1 12 3 := by
    constructor <;> decide +kernel
  exact (createEntry_truthful_iff h.ready h.wellFormed [0x7A] (by norm_num) (RowOk.awake _ _ _ _)).mpr
    ⟨⟨3, 24, [0x67]⟩, by rw [h.seen]; rfl, by decide, by decide⟩

/-- The entry is stored and reported not to be. Behind an entry that fills its block the call writes past
its buffer. -/
theorem createEntry_untruthful :
    (∃ g, (createEntry 2 [0x7A] 4).run fsHandler (rowFs 1 1000 3) = some (.noSpace, g) ∧
    (rowFs 1 1000 3).Stored g 2 [0x7A] 4 ∧ ¬ (rowFs 1 1000 3).Truthful 2 [0x7A] 4 .noSpace g) ∧
    (createEntry 2 [0x7A] 4).run fsHandler (rowFs 1 0 3) = none := by
  have h := rowOk_room
  obtain ⟨_, g, hrun, ⟨rfl, before, hrow, hg⟩, -⟩ :=
    (ends_createEntry_room h.ready h.wellFormed (t := True) (k := 0) [0x7A]
    (fun _ => RowOk.awake _ _ _ _) (x := ⟨3, 1012, [0x67]⟩) (by rw [h.seen]; rfl) (by decide)
      (show 4 < 2 ^ 32 by norm_num) (by decide)).run
  have hst := hg.stored h.wellFormed.last_lt hrow
  refine ⟨⟨g, hrun, hst, fun htrue => absurd (htrue.code.mpr hst) (by simp)⟩, ?_⟩
  have hnone : ((createEntry 2 [0x7A] 4).run fsHandler (rowFs 1 0 3)).isNone := by decide +kernel
  exact isNone_iff_eq_none.mp hnone

/-! ### Removing and entering again -/

def lastLen (fs : Fs) (n : ℕ) : ℕ :=
    (((fs.dirRecords n ((fs.dirBlocks n - 1) % 256)).map DirRec.recLen).getLast?).getD 0

theorem unlinkExt2_keeps (hm : fs.Ready S) (hw : fs.WellFormedDir S n) {u : Unit}
    (hrun : (unlinkExt2 n name).run fsHandler fs = some (u, g)) :
    g.Ready S ∧ g.WellFormedDir S n ∧ g.lastLen n = fs.lastLen n := by
  rcases (ends_unlinkExt2 hm hw (t := False) (k := 0)
    nofun name).post _ _ hrun with ⟨-, hg⟩ | ⟨l, hl, before, r, rs, hrow, -, hg⟩
  · refine ⟨hm.of_mem hg.sound hg.mem, hg.wellFormed hw, ?_⟩
    rw [lastLen, hg.dirBlocks, hg.dirRecords, lastLen]
  · refine ⟨hg.ready, hg.dir, ?_⟩
    unfold lastLen
    rw [hg.blocks]
    by_cases he : (fs.dirBlocks n - 1) % 256 = l % 256
    · rw [he, hg.row, hrow]
      simp
    · rw [hg.same _ hw.last_lt he]

theorem createEntry_shrinks (hm : fs.Ready S) (hw : fs.WellFormedDir S n) (hi : inode < 2 ^ 32)
    (hrun : (createEntry n name inode).run fsHandler fs = some (e, g)) (hst : fs.Stored g n name inode) :
    g.Ready S ∧ g.WellFormedDir S n ∧ g.lastLen n + 8 ≤ fs.lastLen n := by
  obtain ⟨r, hr, -⟩ := createEntry_run hrun
  obtain ⟨x, hlast, ⟨-, -, -, hg⟩ | ⟨-, hroom⟩⟩ := enterEntry_outcome hm hw hr
  · exact absurd hst hg.not_stored
  obtain ⟨-, before, hrow, hg⟩ :=
    (ends_createEntry_room hm hw (t := False) (k := 0) name nofun hlast hroom hi hst.name_lt).post _ _ hrun
  refine ⟨hg.ready, hg.dir, ?_⟩
  have hneed := (recordLen_spec x.name.length).2
  change 8 + x.name.length ≤ x.need at hneed
  unfold lastLen
  rw [hg.blocks, hg.row, hrow]
  simp only [map_append, map_cons, map_nil, List.getLast?_append, List.getLast?_cons_cons,
    List.getLast?_singleton, some_or, getD_some]
  omega

/-- The name is removed and entered `k` times over: the entry is stored each time, and the listing goes
between the same two sets. -/
def Cycles (n : ℕ) (name : List UInt8) (inode : ℕ) (without listed : List (List UInt8 × ℕ)) : ℕ → Fs → Prop
  | 0, _ => True
  | k + 1, fs => ∃ g e g', (unlinkExt2 n name).run fsHandler fs = some ((), g) ∧
    (∀ p, p ∈ g.listing n ↔ p ∈ without) ∧
      (createEntry n name inode).run fsHandler g = some (e, g') ∧ g.Stored g' n name inode ∧
        (∀ p, p ∈ g'.listing n ↔ p ∈ listed) ∧
      Cycles n name inode without listed k g'

theorem cycles_le {without listed : List (List UInt8 × ℕ)} (hi : inode < 2 ^ 32) (k : ℕ) : ∀ fs : Fs,
    fs.Ready S →
    fs.WellFormedDir S n → Cycles n name inode without listed k fs → 8 * k ≤ fs.lastLen n := by
  induction k with
  | zero => exact fun _ _ _ _ => Nat.zero_le _
  | succ k ih =>
    rintro fs hm hw ⟨g, e, g', hunlink, -, hcreate, hst, -, hrest⟩
    obtain ⟨hm₁, hw₁, h1⟩ := unlinkExt2_keeps hm hw hunlink
    obtain ⟨hm₂, hw₂, h2⟩ := createEntry_shrinks hm₁ hw₁ hi hcreate hst
    have := ih g' hm₂ hw₂ hrest
    omega

/-- A name that was entered once cannot be removed and entered again any number of times, in any directory. -/
theorem reuse_never (hm : fs.Ready S) (hw : fs.WellFormedDir S n) (hi : inode < 2 ^ 32)
    (hrun : (createEntry n name inode).run fsHandler fs = some (e, g)) (hst : fs.Stored g n name inode) :
    ¬ ∀ k, Cycles n name inode (fs.listing n) (g.listing n) k g := by
  intro h
  obtain ⟨hm₁, hw₁, -⟩ := createEntry_shrinks hm hw hi hrun hst
  have hle := cycles_le hi (g.lastLen n + 1) g hm₁ hw₁ (h _)
  omega

theorem reuse_never_tail : ∃ g, (createEntry 2 [0x7A] 4).run fsHandler (rowFs 1 16 3) = some (.noSpace, g) ∧
    ¬ ∀ k, Cycles 2 [0x7A] 4 ((rowFs 1 16 3).listing 2) (g.listing 2) k g := by
  have h : RowOk 1 16 3 := by
    constructor <;> decide +kernel
  obtain ⟨_, g, hrun, ⟨rfl, before, hrow, hg⟩, -⟩ :=
    (ends_createEntry_room h.ready h.wellFormed (t := True) (k := 0) [0x7A]
    (fun _ => RowOk.awake _ _ _ _) (x := ⟨3, 28, [0x67]⟩) (by rw [h.seen]; rfl) (by decide)
      (show 4 < 2 ^ 32 by norm_num) (by decide)).run
  exact ⟨g, hrun, reuse_never h.ready h.wellFormed (by norm_num) hrun (hg.stored h.wellFormed.last_lt hrow)⟩

theorem reuse_fails :
    ((enterEntry 2 [0x7A] 4 >>= fun a => unlinkExt2 2 [0x7A] >>= fun _ => enterEntry 2 [0x7A] 4 >>= fun b =>
    Pure.pure (a, b)).run fsHandler (rowFs 1 16 3)).map Prod.fst = some (.written, .noRoom) := by
  decide +kernel

/-! ### Listing, looking up and removing -/

/-- The three calls agree on what is in the directory. -/
structure Agrees (fs : Fs) (n : ℕ) : Prop where
  list : ∀ i, ∃ g, (readdirExt2 n i).run fsHandler fs = some (((fs.listing n)[i]?).map fun p => (p.2, p.1), g)
  find : ∀ name, ∃ node g, (finddirExt2 n name).run fsHandler fs = some (node, g) ∧
    ∀ inode, (∃ m, node = some m ∧ m.name = name ∧ m.inode = inode) ↔ (name, inode) ∈ fs.listing n
  unlink : ∀ name, ∃ g, (unlinkExt2 n name).run fsHandler fs = some ((), g) ∧ g.listing n =
    (fs.listing n).filter (·.1 ≠ name)

theorem find_iff_mem {ps : List (List UInt8 × ℕ)} (hu : (ps.map Prod.fst).Nodup) :
    ps.find? (·.1 = name) = some (name, inode) ↔ (name, inode) ∈ ps := by
  induction ps with
  | nil => simp
  | cons p ps ih =>
    rw [map_cons, nodup_cons] at hu
    by_cases hp : p.1 = name
    · have hno : (name, inode) ∉ ps := fun h => hu.1 (hp ▸ mem_map_of_mem h)
      simp [hp, hno, Prod.ext_iff, eq_comm]
    · have hne : (name, inode) ≠ p := fun h => hp (h ▸ rfl)
      simp [hp, hne, ih hu.2]

theorem filter_ne {ps qs : List (List UInt8 × ℕ)} (hu : ((ps ++ (name, inode) :: qs).map Prod.fst).Nodup) :
    (ps ++ (name, inode) :: qs).filter (·.1 ≠ name) = ps ++ qs := by
  rw [map_append, map_cons, nodup_middle, nodup_cons, ← map_append] at hu
  have hkeep : ∀ rs : List (List UInt8 × ℕ), (∀ p ∈ rs, p ∈ ps ++ qs) → rs.filter (·.1 ≠ name) = rs := by
    intro rs hrs
    rw [filter_eq_self]
    intro p hp
    simpa using fun h => hu.1 (mem_map.mpr ⟨p, hrs p hp, h⟩)
  rw [filter_append, filter_cons_of_neg (by simp), hkeep ps (fun p hp => mem_append_left _ hp),
    hkeep qs fun p hp => mem_append_right _ hp]

section Agree

variable (hm : fs.Ready S) (hw : fs.WellFormedDir S n) (hblocks : fs.dirBlocks n ≤ 256)
include hm hw hblocks

theorem find_agrees (hu : ((fs.listing n).map Prod.fst).Nodup) (hk : fs.Awake (4 * (fs.seen n).length + 6))
    (name : List UInt8) :
    ∃ node g, (finddirExt2 n name).run fsHandler fs = some (node, g) ∧
      ∀ inode, (∃ m, node = some m ∧ m.name = name ∧ m.inode = inode) ↔ (name, inode) ∈ fs.listing n := by
  obtain ⟨node, g, hr, ⟨-, h⟩, -⟩ := (ends_finddirExt2 hm hw (t := True) (k := 0) (fun _ => hk) name).run
  refine ⟨node, g, hr, fun inode => ?_⟩
  rw [seen_eq_all hblocks] at h
  rw [← find_iff_mem hu, listing, ← h, map_eq_some_iff]
  simp [Prod.ext_iff]

theorem unlink_agrees (hu : ((fs.listing n).map Prod.fst).Nodup) (hk : fs.Awake (4 * (fs.seen n).length + 9))
    (name : List UInt8) :
    ∃ g, (unlinkExt2 n name).run fsHandler fs = some ((), g) ∧ g.listing n =
      (fs.listing n).filter (·.1 ≠ name) := by
  obtain ⟨_, g, hr, h, -⟩ := (ends_unlinkExt2 hm hw (t := True) (k := 0) (fun _ => hk) name).run
  refine ⟨g, hr, ?_⟩
  rcases h with ⟨hno, hg⟩ | ⟨l, hl, before, r, rs, hrow, his, hg⟩
  · rw [listing, listing, hg.allRecords, eq_comm, filter_eq_self]
    intro p hp
    obtain ⟨r, hr, hi, rfl⟩ := mem_live.mp hp
    rw [← seen_eq_all hblocks] at hr
    simpa using fun h => hno r hr ⟨hi, h⟩
  · rw [Nat.mod_eq_of_lt (by omega)] at hrow hg
    obtain ⟨a, b, h1, h2, -⟩ := hg.all hl
    have hold : fs.listing n = (live a ++ live before) ++ (name, r.inode) :: (live rs ++ live b) := by
      rw [listing, h1, hrow]
      simp [live, his.1, his.2]
    rw [hold] at hu
    rw [hold, filter_ne hu, listing, h2]
    simp [live]

end Agree

/-- In a directory of at most 255 blocks whose names are different the calls agree exactly if every entry's
inode has no more than 16 bits. -/
theorem calls_agree_iff (hm : fs.Ready S) (hw : fs.WellFormedDir S n) (hblocks : fs.dirBlocks n ≤ 255)
    (hu : ((fs.listing n).map Prod.fst).Nodup) (hk : fs.Awake (4 * (fs.seen n).length + 9)) :
    fs.Agrees n ↔ ∀ p ∈ fs.listing n, p.2 < 2 ^ 16 := by
  have hlist := fun i => (ends_readdirExt2 hm hw (t := True) (k := 0) (fun _ => hk.mono (by omega)) i).run
  rw [seen_eq_all (by omega)] at hlist
  constructor
  · intro h p hp
    obtain ⟨i, hi⟩ := List.getElem?_of_mem hp
    obtain ⟨_, g, hr, ⟨-, rfl⟩, -⟩ := hlist i
    obtain ⟨g', hr'⟩ := h.list i
    have heq := (Prod.mk.inj (some.inj (hr.symm.trans hr'))).1
    rw [show (live (fs.allRecords n))[i]? = some p from hi, hi] at heq
    have hmod : p.2 % 2 ^ 16 = p.2 := (Prod.mk.inj (some.inj heq)).1
    omega
  · intro h
    refine ⟨fun i => ?_, find_agrees hm hw (by omega) hu (hk.mono (by omega)),
      unlink_agrees hm hw (by omega) hu hk⟩
    obtain ⟨_, g, hr, ⟨-, rfl⟩, -⟩ := hlist i
    refine ⟨g, ?_⟩
    rw [hr]
    cases hi : (fs.listing n)[i]? with
    | none => rw [show (live (fs.allRecords n))[i]? = none from hi]; rfl
    | some p =>
      rw [show (live (fs.allRecords n))[i]? = some p from hi]
      simpa using h p (mem_of_getElem? hi)

theorem calls_agree_small : (rowFs 1 1000 3).Agrees 2 := by
  have h := rowOk_room
  have hlisting : (rowFs 1 1000 3).listing 2 = [([0x66], 3), ([0x67], 3)] := by
    rw [listing, h.all]
    decide
  refine (calls_agree_iff h.ready h.wellFormed (by rw [h.blocks]; norm_num) (by rw [hlisting]; decide)
    (RowOk.awake _ _ _ _)).mpr ?_
  rw [hlisting]
  decide

theorem calls_disagree : ((readdirExt2 2 0).run fsHandler (rowFs 1 1000 65539)).map Prod.fst =
    some (some (3, [0x66])) ∧
    ((finddirExt2 2 [0x66]).run fsHandler (rowFs 1 1000 65539)).map (fun r => r.1.map FsNode.inode) =
      some (some 65539) ∧
    ¬ (rowFs 1 1000 65539).Agrees 2 := by
  have hlist : ((readdirExt2 2 0).run fsHandler (rowFs 1 1000 65539)).map Prod.fst =
    some (some (3, [0x66])) := by decide +kernel
  refine ⟨hlist, by decide +kernel, fun h => ?_⟩
  have hok : RowOk 1 1000 65539 := by
    constructor <;> decide +kernel
  have hfirst : ((rowFs 1 1000 65539).listing 2)[0]? = some ([0x66], 65539) := by
    rw [listing, hok.all]
    rfl
  obtain ⟨g, hr⟩ := h.list 0
  rw [hr, hfirst] at hlist
  simp at hlist

/-! ### Block by block -/

/-- The calls go over the logical blocks one after another: `direntry_ext2` gives the entries of all of them
in their order, `finddir_ext2` finds each, `unlink_ext2` removes it where it is, and `create_entry` writes back
the last block. -/
structure WalksBlocks (S : ℕ → Prop) (fs : Fs) (n : ℕ) : Prop where
  entry : ∀ i, ∃ g, (readdirExt2 n i).run fsHandler fs =
    some (((fs.listing n)[i]?).map fun p => (p.2 % 2 ^ 16, p.1), g)
  find : ∀ name, fs.Finds n name ((fs.listing n).find? (·.1 = name))
  unlink : ∀ name, ∃ g, (unlinkExt2 n name).run fsHandler fs = some ((), g) ∧
    g.listing n = (fs.listing n).filter (·.1 ≠ name)
  write : ∀ name inode g, (enterEntry n name inode).run fsHandler fs = some (.written, g) →
    ∃ buf, fs.Rewrote S (fs.dirBlock n (fs.dirBlocks n - 1)) buf g ∧ ∃ i < fs.blockSize,
      buf i ≠ fs.dirData n (fs.dirBlocks n - 1) i

/-- A loop that has gone over 256 blocks comes to the entries of the first one again. -/
theorem seen_twice (hlarge : 256 < fs.dirBlocks n) {p : List UInt8 × ℕ} (hp : p ∈ live (fs.dirRecords n 0)) :
    ¬ ((live (fs.seen n)).map Prod.fst).Nodup := by
  obtain ⟨m, hm⟩ := Nat.exists_eq_add_of_lt hlarge
  have hrange : List.range (fs.dirBlocks n) = List.range 256 ++ List.range' 256 (m + 1) := by
    rw [range_eq_range', range_eq_range', hm, show 256 + m + 1 = 256 + (m + 1) by omega,
      ← List.range'_append_1, Nat.zero_add]
  have hfirst : p.1 ∈ (live ((List.range 256).flatMap fun l => fs.dirRecords n (l % 256))).map Prod.fst := by
    obtain ⟨r, hr, hi, rfl⟩ := mem_live.mp hp
    exact mem_map_of_mem (mem_live.mpr ⟨r, mem_flatMap.mpr ⟨0, by simp, hr⟩, hi, rfl⟩)
  have hagain : p.1 ∈ (live ((List.range' 256 (m + 1)).flatMap fun l =>
      fs.dirRecords n (l % 256))).map Prod.fst := by
    obtain ⟨r, hr, hi, rfl⟩ := mem_live.mp hp
    exact mem_map_of_mem (mem_live.mpr ⟨r, mem_flatMap.mpr ⟨256, by simp, hr⟩, hi, rfl⟩)
  rw [seen, hrange, flatMap_append, live_append, map_append, nodup_append]
  exact fun h => h.2.2 _ hfirst _ hagain rfl

end Fs

end ChiffOS.Ext2
