import ChiffOS.Ext2.DirListing

/-! The loops over the entries of a directory, whatever its blocks hold. Where the next record is comes from
the record before it, and nothing is checked: a length of 0 goes round for ever, and a record that leaves
its block is read behind the buffer. The calls return just when the way over the records comes to an end
inside the blocks. -/

namespace ChiffOS.Ext2

open Buf Prog

/-- A loop over a directory: how many bytes it looks at in a record, the records and the counts it stops at,
and how it counts. -/
structure WalkLoop where
  need : Cursor → ℕ
  stops : ℕ → Cursor → Bool
  count : ℕ → Cursor → ℕ := fun i _ => i
  last : ℕ → Bool := fun _ => false

/-- The loop of `finddir_ext2` and `unlink_ext2`. -/
def findLoop (name : List UInt8) : WalkLoop where
  need c := if c.inode = 0 ∨ name.length ≠ c.nameLen then 8 else 8 + c.nameLen
  stops _ c := ¬ (c.inode = 0 ∨ name.length ≠ c.nameLen) ∧ c.name = name

def entryLoop (index : ℕ) : WalkLoop where
  need _ := 8
  stops i c := c.inode ≠ 0 ∧ i = index
  count i c := if c.inode ≠ 0 then i + 1 else i
  last i := index < i

/-- The loop of `create_entry`, in a directory of `len` bytes. -/
def endLoop (len : ℕ) : WalkLoop where
  need c := 8 + c.nameLen
  stops _ c := c.recLen ≠ c.sreclen ∧ (c.totalOffset + c.recLen) % 2 ^ 32 = len

namespace Fs

def clean (fs : Fs) (n : ℕ) (c : Cursor) : Cursor := { c with block := fs.dirData n c.blockNr }

def turned (fs : Fs) (n : ℕ) (c : Cursor) : Cursor :=
  if fs.blockSize ≤ c.dirOffset then
    ⟨fs.dirData n ((c.blockNr + 1) % 256), (c.blockNr + 1) % 256, c.dirOffset - fs.blockSize, c.totalOffset⟩
  else c

/-- The way over the records: where the loop stops, and if it is at a record. Nothing where it leaves a
block, or comes to no end in so many rounds. -/
def walk (fs : Fs) (n : ℕ) (L : WalkLoop) : (fuel : ℕ) → (i : ℕ) → Cursor → Option (Bool × Cursor)
  | 0, _, _ => none
  | fuel + 1, i, c =>
    if c.totalOffset < fs.dirBlocks n * fs.blockSize ∧ ¬ L.last i then
      let t := fs.turned n c
      if t.dirOffset + L.need t ≤ fs.blockSize then
        if L.stops i t then some (true, t) else fs.walk n L fuel (L.count i t) (t.skip t.recLen)
      else none
    else some (false, c)

def dirStart (fs : Fs) (n : ℕ) : Cursor := ⟨fs.dirData n 0, 0, 0, 0⟩

/-- The way comes to an end within `m` rounds, and to a good one. -/
def Walks (fs : Fs) (n : ℕ) (L : WalkLoop) (P : Bool × Cursor → Prop) (m i : ℕ) (c : Cursor) : Prop :=
  ∃ w, fs.walk n L m i c = some w ∧ P w

def Whole (fs : Fs) (c : Cursor) : Prop := c.dirOffset + c.recLen ≤ fs.blockSize

def Taken (fs : Fs) (w : Bool × Cursor) : Prop := w.1 → fs.Whole w.2

instance (fs : Fs) : DecidablePred fs.Taken := fun w => by
  unfold Taken Whole
  infer_instance

section Steps

variable {fs : Fs} {n fuel i : ℕ} {L : WalkLoop} {c : Cursor}

theorem walk_end (h : ¬ (c.totalOffset < fs.dirBlocks n * fs.blockSize ∧ ¬ L.last i)) :
    fs.walk n L (fuel + 1) i c = some (false, c) := if_neg h

section Round

variable {r : Cursor} (hr : r = fs.turned n c) (h : c.totalOffset < fs.dirBlocks n * fs.blockSize ∧
    ¬ L.last i)
include hr h

theorem walk_record : fs.walk n L (fuel + 1) i c = if r.dirOffset + L.need r ≤ fs.blockSize then
      if L.stops i r then some (true, r) else fs.walk n L fuel (L.count i r) (r.skip r.recLen)
    else none := by
  subst hr
  exact if_pos h

theorem walk_stop (hfit : r.dirOffset + L.need r ≤ fs.blockSize) (hstop : L.stops i r) :
    fs.walk n L (fuel + 1) i c = some (true, r) := by
  rw [walk_record hr h, if_pos hfit, if_pos hstop]

theorem walk_next (hfit : r.dirOffset + L.need r ≤ fs.blockSize) (hstop : ¬ L.stops i r) :
    fs.walk n L (fuel + 1) i c = fs.walk n L fuel (L.count i r) (r.skip r.recLen) := by
  rw [walk_record hr h, if_pos hfit, if_neg hstop]

/-- With `t` the way comes to its end in `m` rounds. This is the first of them. -/
theorem Walks.round {t : Prop} {m : ℕ} {P : Bool × Cursor → Prop}
    (ht : t → m ≤ fuel + 1 ∧ fs.Walks n L P m i c) :
    ∃ m', (t → m = m' + 1) ∧ (t → r.dirOffset + L.need r ≤ fs.blockSize) ∧ (L.stops i r → t → P (true, r)) ∧
      (¬ L.stops i r → t → m' ≤ fuel ∧ fs.Walks n L P m' (L.count i r) (r.skip r.recLen)) := by
  cases m with
  | zero =>
    have hno : ¬ t := by
      intro h'
      obtain ⟨-, w, hw, -⟩ := ht h'
      cases hw
    exact ⟨0, fun h' => absurd h' hno, fun h' => absurd h' hno, fun _ h' => absurd h' hno, fun _ h' =>
      absurd h' hno⟩
  | succ m =>
    have hfit : t → r.dirOffset + L.need r ≤ fs.blockSize := by
      intro h'
      by_contra hbad
      obtain ⟨-, w, hw, -⟩ := ht h'
      rw [walk_record hr h, if_neg hbad] at hw
      cases hw
    refine ⟨m, fun _ => rfl, hfit, fun hstop h' => ?_, fun hstop h' => ?_⟩
    · obtain ⟨-, w, hw, hP⟩ := ht h'
      rw [walk_stop hr h (hfit h') hstop] at hw
      obtain rfl := Option.some.inj hw
      exact hP
    · obtain ⟨hle, w, hw, hP⟩ := ht h'
      rw [walk_next hr h (hfit h') hstop] at hw
      exact ⟨Nat.le_of_succ_le_succ hle, w, hw, hP⟩

end Round

/-- A loop that neither stops at a record nor moves on by it comes to no end. -/
theorem walk_stuck (h : c.totalOffset < fs.dirBlocks n * fs.blockSize ∧ ¬ L.last i)
    (hin : c.dirOffset < fs.blockSize)
    (hstop : ¬ L.stops i c) (hcount : L.count i c = i) (hskip : c.skip c.recLen = c) (fuel : ℕ) :
      fs.walk n L fuel i c = none := by
  have hturn : c = fs.turned n c := (if_neg (Nat.not_le.mpr hin)).symm
  induction fuel with
  | zero => rfl
  | succ fuel ih =>
    rw [walk_record hturn h, if_neg hstop, hcount, hskip, ih, ite_self]

/-- What the loop reads in its copy of the block is what is on the disk. -/
theorem Stands.fields (hc : fs.Stands n c) (h8 : c.dirOffset + 8 ≤ fs.blockSize) :
    c.inode = (fs.clean n c).inode ∧ c.recLen = (fs.clean n c).recLen ∧ c.nameLen = (fs.clean n c).nameLen :=
  ⟨u32_congr (hc.block.mono (Nat.zero_le _) (by omega)), u16_congr (hc.block.mono (Nat.zero_le _) (by omega)),
    congrArg UInt8.toNat (hc.block _ (Nat.zero_le _) (by omega))⟩

theorem Stands.name (hc : fs.Stands n c) (h : c.dirOffset + (8 + c.nameLen) ≤ fs.blockSize) : c.name =
    (fs.clean n c).name := by
  have hlen := (hc.fields (by omega)).2.2
  unfold Cursor.name entName
  rw [show entNameLen (fs.clean n c).block (fs.clean n c).dirOffset =
    entNameLen c.block c.dirOffset from hlen.symm]
  refine List.map_congr_left fun j hj => hc.block _ (Nat.zero_le _) ?_
  have hj : j < c.nameLen := List.mem_range.mp hj
  omega

end Steps

theorem ends_needBytes_iff {α : Type} {t : Prop} {g : Fs} {c : Cursor} {len k : ℕ} {f : Unit → Ext2M α}
    {Q : α → Fs → Prop}
    (ht : t → c.dirOffset + len ≤ g.blockSize) (h : c.dirOffset + len ≤ g.blockSize → g.Ends t (f ()) k Q) :
    g.Ends t (needBytes c len >>= f) k Q := by
  by_cases hc : c.dirOffset + len ≤ g.blockSize
  · exact ends_needBytes hc (h hc)
  · exact ⟨post_needBytes fun h => absurd h hc, fun ht' => absurd (ht ht') hc⟩

theorem ends_undefined {α : Type} {t : Prop} {fs g : Fs} {n m i k : ℕ} {c : Cursor} {L : WalkLoop}
    {P : Bool × Cursor → Prop}
    {Q : α → Fs → Prop} (ht : t → m ≤ 0 ∧ fs.Walks n L P m i c) : g.Ends t undefined k Q := by
  refine ⟨post_undefined, fun h => ?_⟩
  obtain ⟨hm0, w, hw, -⟩ := ht h
  obtain rfl : m = 0 := by omega
  cases hw

theorem ends_takeRaw {t : Prop} {S : ℕ → Prop} {fs g : Fs} {n k : ℕ} {c : Cursor} (hg : fs.Looked S g)
    (hk : g.Room t k)
    (hc : fs.Stands n c) (h8 : c.dirOffset + 8 ≤ fs.blockSize) (ht : t → fs.Whole (fs.clean n c)) :
    g.Ends t (takeEntry c) k fun _ g' => fs.Looked S g' ∧ fs.Whole (fs.clean n c) := by
  have hsize : g.blockSize = fs.blockSize := congrArg Mem.blockSize hg.mem
  obtain ⟨-, hrec, -⟩ := hc.fields h8
  unfold Whole at ht ⊢
  rw [← hrec] at ht ⊢
  refine ends_needBytes_iff (fun h => by rw [hsize]; exact ht h) fun hin => ?_
  rw [hsize] at hin
  exact ends_malloc hg hk fun _ g₁ hg₁ hk₁ => ends_pure hk₁ ⟨hg₁, hin⟩

section Loops

variable {t : Prop} {S : ℕ → Prop} {fs g : Fs} {n k : ℕ} {c : Cursor} {P : Bool × Cursor → Prop}
    {pinode : Buf} (hm : fs.Ready S)
  (hd : fs.Directory S n)
  (hp : SameOn pinode (fs.storedInode n) 0 fs.inodeSize)
include hm hd hp

theorem ends_turned (hg : fs.Looked S g) (hc : fs.Stands n c) (ho : fs.OffsetsOk n c)
    (hlt : c.totalOffset < fs.dirBlocks n * fs.blockSize) (hk : g.Room t (k + 4)) :
      g.Ends t (turnBlock pinode c) k fun c' g' =>
      fs.Looked S g' ∧ fs.Stands n c' ∧ fs.OffsetsOk n c' ∧ c'.totalOffset < fs.dirBlocks n * fs.blockSize ∧
      fs.clean n c' = fs.turned n (fs.clean n c) := by
  refine ⟨(post_turnBlock hm hd hp hg hc ho hlt).mono ?_, (ends_turnBlock_last hm hg hk c).returns⟩
  rintro c' g' ⟨hg', hc', ho', hlt', heq⟩
  refine ⟨hg', hc', ho', hlt', ?_⟩
  rw [heq, turned]
  by_cases hge : fs.blockSize ≤ c.dirOffset
  · rw [if_pos hge, if_pos (show fs.blockSize ≤ (fs.clean n c).dirOffset from hge)]
    rfl
  · rw [if_neg hge, if_neg (show ¬ fs.blockSize ≤ (fs.clean n c).dirOffset from hge)]

/-- `finddir_ext2` and `unlink_ext2` follow the way over the records. -/
theorem ends_searchRaw (name : List UInt8) (fuel : ℕ) : ∀ (m : ℕ) (c : Cursor) (g : Fs), fs.Looked S g →
    fs.Stands n c →
    fs.OffsetsOk n c → g.Room t (4 * m + k) →
      (t → m ≤ fuel ∧ fs.Walks n (findLoop name) P m 0 (fs.clean n c)) →
    g.Ends t (searchEntry pinode name fuel c) k fun r g' => fs.Looked S g' ∧
      ∃ w, fs.walk n (findLoop name) fuel 0 (fs.clean n c) = some w ∧
        match r with
        | none => w.1 = false
        | some c' => w = (true, fs.clean n c') ∧ fs.Stands n c' ∧ c'.dirOffset + 8 ≤ fs.blockSize := by
  induction fuel with
  | zero => exact fun m c g _ _ _ _ ht => ends_undefined ht
  | succ fuel ih =>
    intro m c g hg hc ho hk ht
    unfold searchEntry
    rw [pinode_length hm hd hp]
    by_cases hlt : c.totalOffset < fs.dirBlocks n * fs.blockSize
    · rw [if_pos hlt]
      have hgo : (fs.clean n c).totalOffset < fs.dirBlocks n * fs.blockSize ∧ ¬ (findLoop name).last 0 :=
        ⟨hlt, by simp [findLoop]⟩
      obtain ⟨m', hm', hfit, -, hnext⟩ := Walks.round rfl hgo ht
      have hk' : g.Room t (4 * m' + k + 4) := fun h => (hk h).mono (by have := hm' h; omega)
      refine (ends_turned hm hd hp hg hc ho hlt hk').bind ?_
      rintro c₁ g₁ hk₁ ⟨hg₁, hc₁, ho₁, hlt₁, hturn⟩
      rw [← hturn] at hfit hnext
      have hsize : g₁.blockSize = fs.blockSize := congrArg Mem.blockSize hg₁.mem
      have h8le : 8 ≤ (findLoop name).need (fs.clean n c₁) := by
        simp only [findLoop]
        split_ifs <;> omega
      refine ends_needBytes_iff (fun h => by have : c₁.dirOffset + _ ≤ _ := hfit h; omega) fun h8 => ?_
      rw [hsize] at h8
      obtain ⟨hinode, hrec, hlen⟩ := hc₁.fields h8
      have hskip₁ : ∀ g₂, fs.Looked S g₂ → g₂.Room t (4 * m' + k) →
          c₁.dirOffset + (findLoop name).need (fs.clean n c₁) ≤ fs.blockSize →
            ¬ (findLoop name).stops 0 (fs.clean n c₁) →
          g₂.Ends t (searchEntry pinode name fuel (c₁.skip c₁.recLen)) k fun r g' => fs.Looked S g' ∧
            ∃ w, fs.walk n (findLoop name) (fuel + 1) 0 (fs.clean n c) = some w ∧
              match r with
              | none => w.1 = false
              | some c' => w = (true, fs.clean n c') ∧ fs.Stands n c' ∧ c'.dirOffset + 8 ≤ fs.blockSize := by
        intro g₂ hg₂ hk₂ hfit₁ hstop
        rw [walk_next hturn hgo hfit₁ hstop, ← hrec]
        have hnext₁ := hnext hstop
        rw [← hrec] at hnext₁
        exact ih m' _ g₂ hg₂ ⟨hc₁.nr, hc₁.block⟩ (ho₁.skip hm hlt₁ h8 (u16_lt _ _)) hk₂ hnext₁
      rw [hinode, hlen]
      by_cases hskip : (fs.clean n c₁).inode = 0 ∨ name.length ≠ (fs.clean n c₁).nameLen
      · rw [if_pos hskip]
        refine hskip₁ g₁ hg₁ hk₁ (by simpa [findLoop, hskip] using h8) ?_
        simp only [findLoop, decide_eq_true_eq]
        exact fun h => h.1 hskip
      · rw [if_neg hskip]
        have hneed : (findLoop name).need (fs.clean n c₁) = 8 + (fs.clean n c₁).nameLen := if_neg hskip
        refine ends_malloc hg₁ hk₁ fun _ g₂ hg₂ hk₂ => ?_
        have hsize₂ : g₂.blockSize = fs.blockSize := congrArg Mem.blockSize hg₂.mem
        refine ends_needBytes_iff (fun h => by rw [hsize₂, ← hneed]; exact hfit h) fun hfit₁ => ?_
        rw [hsize₂] at hfit₁
        rw [hc₁.name (by rwa [hlen])]
        by_cases heq : (fs.clean n c₁).name = name
        · rw [if_pos heq]
          refine ends_pure (hk₂.mono (by omega)) ⟨hg₂, _, walk_stop hturn hgo (by rwa [hneed]) ?_, rfl, hc₁,
            h8⟩
          simpa [findLoop, heq] using hskip
        · rw [if_neg heq]
          exact hskip₁ g₂ hg₂ hk₂ (by rwa [hneed]) (by simp [findLoop, heq])
    · rw [if_neg hlt]
      refine ends_pure (hk.mono (by omega)) ⟨hg, _, walk_end fun h => hlt h.1, rfl⟩

theorem ends_endRaw (fuel : ℕ) : ∀ (m : ℕ) (c : Cursor) (g : Fs), fs.Looked S g → fs.Stands n c →
    fs.OffsetsOk n c →
    g.Room t (4 * m + k) →
      (t → m ≤ fuel ∧ fs.Walks n (endLoop (fs.dirBlocks n * fs.blockSize)) P m 0 (fs.clean n c)) →
    g.Ends t (seekEnd pinode fuel c) k fun r g' => fs.Looked S g' ∧
      ∃ w, fs.walk n (endLoop (fs.dirBlocks n * fs.blockSize)) fuel 0 (fs.clean n c) = some w ∧
        match r with
        | .modify _ c' => w.1 = true ∧ fs.Stands n c'
        | .past c' => w.1 = false ∧ fs.blockSize ≤ c'.dirOffset := by
  induction fuel with
  | zero => exact fun m c g _ _ _ _ ht => ends_undefined ht
  | succ fuel ih =>
    intro m c g hg hc ho hk ht
    unfold seekEnd
    rw [pinode_length hm hd hp]
    by_cases hlt : c.totalOffset < fs.dirBlocks n * fs.blockSize
    · rw [if_pos hlt]
      have hgo : (fs.clean n c).totalOffset < fs.dirBlocks n * fs.blockSize ∧
          ¬ (endLoop (fs.dirBlocks n * fs.blockSize)).last 0 := ⟨hlt, by simp [endLoop]⟩
      obtain ⟨m', hm', hfit, -, hnext⟩ := Walks.round rfl hgo ht
      have hk' : g.Room t (4 * m' + k + 4) := fun h => (hk h).mono (by have := hm' h; omega)
      refine (ends_turned hm hd hp hg hc ho hlt hk').bind ?_
      rintro c₁ g₁ hk₁ ⟨hg₁, hc₁, ho₁, hlt₁, hturn⟩
      rw [← hturn] at hfit hnext
      have hsize : g₁.blockSize = fs.blockSize := congrArg Mem.blockSize hg₁.mem
      have hfit₁ : t → c₁.dirOffset + (8 + (fs.clean n c₁).nameLen) ≤ fs.blockSize := hfit
      refine ends_needBytes_iff (fun h => by have := hfit₁ h; omega) fun h8 => ?_
      rw [hsize] at h8
      obtain ⟨-, hrec, hlen⟩ := hc₁.fields h8
      refine ends_needBytes_iff (fun h => by rw [hsize, hlen]; exact hfit₁ h) fun hin => ?_
      rw [hsize, hlen] at hin
      rw [hrec, show c₁.sreclen = (fs.clean n c₁).sreclen from congrArg recordLen hlen]
      by_cases hstop : (fs.clean n c₁).recLen ≠ (fs.clean n c₁).sreclen ∧
          (c₁.totalOffset + (fs.clean n c₁).recLen) % 2 ^ 32 = fs.dirBlocks n * fs.blockSize
      · rw [if_pos hstop]
        exact ends_pure (hk₁.mono (by omega)) ⟨hg₁, _, walk_stop hturn hgo hin (decide_eq_true hstop), rfl,
          hc₁.nr, hc₁.block⟩
      · have hno : ¬ (endLoop (fs.dirBlocks n * fs.blockSize)).stops 0 (fs.clean n c₁) := fun h =>
          hstop (of_decide_eq_true h)
        rw [if_neg hstop, walk_next hturn hgo hin hno]
        exact ih m' _ g₁ hg₁ ⟨hc₁.nr, hc₁.block⟩ (ho₁.skip hm hlt₁ h8 (u16_lt _ _)) hk₁ (hnext hno)
    · rw [if_neg hlt]
      exact ends_pure (hk.mono (by omega)) ⟨hg, _, walk_end fun h => hlt h.1, rfl,
        ho.past (Nat.not_lt.mp hlt)⟩

theorem ends_turned_next (hg : fs.Looked S g) (hc : fs.Stands n c) (ho : fs.OffsetsOk n c)
    (hk : g.Room t (k + 4)) :
    g.Ends t (turnBlock pinode c) k fun c' g' => fs.Looked S g' ∧ c'.totalOffset = c.totalOffset ∧
      (c.totalOffset < fs.dirBlocks n * fs.blockSize →
        fs.Stands n c' ∧ fs.OffsetsOk n c' ∧ fs.clean n c' = fs.turned n (fs.clean n c)) := by
  have hlast : g.Ends t (turnBlock pinode c) k fun c' g' => fs.Looked S g' ∧ c'.totalOffset = c.totalOffset :=
    ends_turnBlock_last hm hg hk c
  by_cases hlt : c.totalOffset < fs.dirBlocks n * fs.blockSize
  · have hturn := ends_turned hm hd hp hg hc ho hlt hk
    refine ⟨fun c' g' hr => ?_, hlast.returns⟩
    obtain ⟨hg', hc', ho', -, heq⟩ := hturn.post c' g' hr
    exact ⟨hg', (hlast.post c' g' hr).2, fun _ => ⟨hc', ho', heq⟩⟩
  · exact hlast.mono le_rfl fun c' g' h => ⟨h.1, h.2, fun h' => absurd h' hlt⟩

/-- `direntry_ext2` follows the way too. Its cursor has turned to the next block where that of the way is
still to. -/
theorem ends_entryRaw (index fuel : ℕ) : ∀ (m j : ℕ) (c c₀ : Cursor) (g : Fs), fs.Looked S g → c.totalOffset =
    c₀.totalOffset →
    (c₀.totalOffset < fs.dirBlocks n * fs.blockSize → fs.Stands n c ∧ fs.OffsetsOk n c ∧ fs.clean n c =
      fs.turned n c₀) →
    g.Room t (4 * m + k) → (t → m ≤ fuel ∧ fs.Walks n (entryLoop index) fs.Taken m j c₀) →
    g.Ends t (seekEntry pinode index fuel j c) k fun _ g' => fs.Looked S g' ∧
      fs.Walks n (entryLoop index) fs.Taken fuel j c₀ := by
  induction fuel with
  | zero => exact fun m j c c₀ g _ _ _ _ ht => ends_undefined ht
  | succ fuel ih =>
    intro m j c c₀ g hg htotal hc hk ht
    unfold seekEntry
    rw [pinode_length hm hd hp, htotal]
    by_cases hlt : c₀.totalOffset < fs.dirBlocks n * fs.blockSize ∧ j ≤ index
    · rw [if_pos hlt]
      have hgo : c₀.totalOffset < fs.dirBlocks n * fs.blockSize ∧
        ¬ (entryLoop index).last j := by simpa [entryLoop] using hlt
      obtain ⟨hc, ho, hturn⟩ := hc hlt.1
      obtain ⟨m', hm', hfit, hhit, hnext⟩ := Walks.round hturn hgo ht
      have hsize : g.blockSize = fs.blockSize := congrArg Mem.blockSize hg.mem
      refine ends_needBytes_iff (fun h => by rw [hsize]; exact hfit h) fun h8 => ?_
      rw [hsize] at h8
      obtain ⟨hinode, hrec, -⟩ := hc.fields h8
      rw [hinode, hrec]
      by_cases hstop : (fs.clean n c).inode ≠ 0 ∧ j = index
      · rw [if_pos hstop]
        have hstop' : (entryLoop index).stops j (fs.clean n c) := decide_eq_true hstop
        refine (ends_takeRaw hg (hk.mono (Nat.le_add_left _ _)) hc h8 fun h => hhit hstop' h rfl).bind
          fun out g₁ hk₁ h₁ => ?_
        exact ends_pure hk₁ ⟨h₁.1, _, walk_stop hturn hgo h8 hstop', fun _ => h₁.2⟩
      · rw [if_neg hstop]
        have hno : ¬ (entryLoop index).stops j (fs.clean n c) := fun h => hstop (of_decide_eq_true h)
        have hk' : g.Room t (4 * m' + k + 4) := fun h => (hk h).mono (by have := hm' h; omega)
        have ho₁ := ho.skip hm (htotal ▸ hlt.1) h8
          (u16_lt (fs.clean n c).block ((fs.clean n c).dirOffset + 4))
        have hc' : fs.Stands n (c.skip (fs.clean n c).recLen) := ⟨hc.nr, hc.block⟩
        refine (ends_turned_next hm hd hp hg hc' ho₁ hk').bind ?_
        rintro c₁ g₁ hk₁ ⟨hg₁, htotal₁, hc₁⟩
        unfold Walks
        rw [walk_next hturn hgo h8 hno]
        exact ih m' _ c₁ _ g₁ hg₁ htotal₁ hc₁ hk₁ (hnext hno)
    · rw [if_neg hlt]
      refine ends_pure (hk.mono (by omega)) ⟨hg, _, walk_end ?_, fun h => absurd h Bool.false_ne_true⟩
      simpa [entryLoop] using hlt

theorem ends_openRaw (hg : fs.Looked S g) (hk : g.Room t (k + 4)) : g.Ends t (openDir pinode) k fun c g' =>
    fs.Looked S g' ∧ fs.Stands n c ∧ fs.OffsetsOk n c ∧ fs.clean n c = fs.dirStart n := by
  have hbs : 0 < fs.blockSize := Nat.pos_of_dvd_of_pos hm.sized.block (by norm_num)
  refine (ends_openBlock hm hd hp hg hk).mono le_rfl ?_
  rintro _ g' ⟨hg', block, hblock, rfl⟩
  refine ⟨hg', ⟨hd.pos, hblock⟩, ⟨.inr (by simp), rfl, fun h => ?_⟩, rfl⟩
  exact absurd h (Nat.not_le.mpr (Nat.mul_pos hd.pos hbs))

end Loops

/-! ### The calls -/

/-- The call of a loop comes to a good end. -/
def WalksOk (fs : Fs) (n : ℕ) (L : WalkLoop) (P : Bool × Cursor → Prop) : Prop := fs.Walks n L P (2 ^ 32) 0
    (fs.dirStart n)

/-- The clock of the cache has room for the rounds of a way that comes to a good end, and for what a call
does before and behind them. -/
def Ticks (fs : Fs) (n : ℕ) (L : WalkLoop) (P : Bool × Cursor → Prop) : Prop :=
  fs.WalksOk n L P → ∃ m ≤ 2 ^ 32, fs.Awake (4 * m + 14) ∧ fs.Walks n L P m 0 (fs.dirStart n)

theorem Ends.returns_iff {α : Type} {t : Prop} {fs : Fs} {p : Ext2M α} {k : ℕ}
    (h : fs.Ends t p k fun _ _ => t) :
    (∃ r g, p.run fsHandler fs = some (r, g)) ↔ t := by
  constructor
  · rintro ⟨r, g, hr⟩
    exact h.post r g hr
  · intro ht
    obtain ⟨r, g, hr, -⟩ := h.returns ht
    exact ⟨r, g, hr⟩

section Calls

variable {S : ℕ → Prop} {fs : Fs} {n : ℕ} {L : WalkLoop} {P : Bool × Cursor → Prop} (hm : fs.Ready S)
    (hd : fs.Directory S n)
include hm hd

omit hm hd in
theorem Ticks.rounds {t : Prop} (hk : fs.Ticks n L P) (ht : t → fs.WalksOk n L P) : ∃ m, fs.Room t
    (4 * m + 14) ∧
    (t → m ≤ 2 ^ 32 ∧ fs.Walks n L P m 0 (fs.dirStart n)) := by
  by_cases h : t
  · obtain ⟨m, hle, hawake, hwalk⟩ := hk (ht h)
    exact ⟨m, fun _ => hawake, fun _ => ⟨hle, hwalk⟩⟩
  · exact ⟨0, fun h' => absurd h' h, fun h' => absurd h' h⟩

theorem find_returns_iff (name : List UInt8) (hk : fs.Ticks n (findLoop name) fs.Taken) :
    (∃ r g, (finddirExt2 n name).run fsHandler fs = some (r, g)) ↔ fs.WalksOk n (findLoop name) fs.Taken := by
  obtain ⟨m, hroom, hwalk⟩ := hk.rounds id
  refine Ends.returns_iff (k := 0) ?_
  refine (ends_record hm hd (hroom.mono (show 4 * m + 1 + 4 + 1 ≤ _ by omega))).bind fun pinode g₁ hk₁ h₁ =>
    ?_
  refine (ends_openRaw hm hd h₁.2 h₁.1 hk₁).bind ?_
  rintro c g₂ hk₂ ⟨hg₂, hc, ho, hstart⟩
  rw [← hstart] at hwalk
  refine (ends_searchRaw hm hd h₁.2 name _ m c g₂ hg₂ hc ho hk₂ hwalk).bind ?_
  rintro res g₃ hk₃ ⟨hg₃, w, hw, hres⟩
  rw [hstart] at hw
  cases res with
  | none => exact ends_pure (hk₃.mono (by omega)) ⟨w, hw, fun h => absurd h (by simp [hres])⟩
  | some c =>
    obtain ⟨rfl, hc, h8⟩ := hres
    have hwhole : fs.WalksOk n (findLoop name) fs.Taken → fs.Whole (fs.clean n c) := by
      rintro ⟨w, hw', hP⟩
      obtain rfl := Option.some.inj (hw.symm.trans hw')
      exact hP rfl
    refine (ends_takeRaw hg₃ hk₃ hc h8 hwhole).bind fun out g₄ hk₄ h₄ => ?_
    refine ends_malloc h₄.1 hk₄ fun _ g₅ hg₅ hk₅ => ?_
    refine (ends_looks (reading_readInode _) hg₅ fun ht => returns_readInode (k := 0) (hk₅ ht) _).bind
      fun ino g₆ hk₆ hg₆ => ?_
    exact ends_pure hk₆ ⟨_, hw, fun _ => h₄.2⟩

theorem entry_returns_iff (index : ℕ) (hk : fs.Ticks n (entryLoop index) fs.Taken) :
    (∃ r g, (readdirExt2 n index).run fsHandler fs = some (r, g)) ↔
      fs.WalksOk n (entryLoop index) fs.Taken := by
  obtain ⟨m, hroom, hwalk⟩ := hk.rounds id
  refine Ends.returns_iff (k := 0) ?_
  refine (ends_record hm hd (hroom.mono (show 4 * m + 0 + 4 + 1 ≤ _ by omega))).bind fun pinode g₁ hk₁ h₁ =>
    ?_
  refine (ends_openRaw hm hd h₁.2 h₁.1 hk₁).bind ?_
  rintro c g₂ hk₂ ⟨hg₂, hc, ho, hstart⟩
  have hbs : 0 < fs.blockSize := Nat.pos_of_dvd_of_pos hm.sized.block (by norm_num)
  have hoff : (fs.clean n c).totalOffset = (fs.dirStart n).totalOffset := congrArg Cursor.totalOffset hstart
  have hturn : fs.turned n (fs.dirStart n) = fs.dirStart n := if_neg (Nat.not_le.mpr hbs)
  refine (ends_entryRaw hm hd h₁.2 (k := 0) index _ m 0 c (fs.dirStart n) g₂ hg₂ hoff (fun _ =>
    ⟨hc, ho, hstart.trans hturn.symm⟩)
    hk₂ hwalk).bind ?_
  rintro res g₃ hk₃ ⟨hg₃, hw⟩
  cases res with
  | none => exact ends_pure hk₃ hw
  | some out => exact ends_malloc hg₃ hk₃ fun _ g₄ hg₄ hk₄ => ends_pure hk₄ hw

theorem unlink_returns_iff (name : List UInt8) (hk : fs.Ticks n (findLoop name) fun _ => True) :
    (∃ r g, (unlinkExt2 n name).run fsHandler fs = some (r, g)) ↔ fs.WalksOk n (findLoop name) fun _ =>
      True := by
  obtain ⟨m, hroom, hwalk⟩ := hk.rounds id
  refine Ends.returns_iff (k := 0) ?_
  refine (ends_record hm hd (hroom.mono (show 4 * m + 4 + 4 + 1 ≤ _ by omega))).bind fun pinode g₁ hk₁ h₁ =>
    ?_
  refine (ends_openRaw hm hd h₁.2 h₁.1 hk₁).bind ?_
  rintro c g₂ hk₂ ⟨hg₂, hc, ho, hstart⟩
  rw [← hstart] at hwalk
  refine (ends_searchRaw hm hd h₁.2 name _ m c g₂ hg₂ hc ho hk₂ hwalk).bind ?_
  rintro res g₃ hk₃ ⟨hg₃, w, hw, hres⟩
  rw [hstart] at hw
  cases res with
  | none => exact ends_pure (hk₃.mono (by omega)) ⟨w, hw, trivial⟩
  | some c =>
    obtain ⟨-, hc, -⟩ := hres
    refine (ends_writeDirBlock hm hd h₁.2 hg₃ hk₃ hc.nr _).bind fun _ g₄ hk₄ _ => ?_
    exact ⟨fun _ _ _ => ⟨w, hw, trivial⟩, fun ht => returns_sync (hk₄ ht)⟩

/-- Behind the last record `create_entry` would write outside of its buffer, so it must not come there. -/
theorem create_returns_iff (name : List UInt8) (inode : ℕ) (hawake : fs.Awake 14)
    (hk : fs.Ticks n (endLoop (fs.dirBlocks n * fs.blockSize)) fun w => w.1 = true) :
    (∃ r g, (createEntry n name inode).run fsHandler fs = some (r, g)) ↔
      inodeMode (fs.storedInode n) &&& sIfdir = 0 ∨
      fs.WalksOk n (endLoop (fs.dirBlocks n * fs.blockSize)) fun w => w.1 = true := by
  refine Ends.returns_iff (k := 0) ?_
  refine Ends.bind (k := 0) (P := fun _ _ => inodeMode (fs.storedInode n) &&& sIfdir = 0 ∨
    fs.WalksOk n (endLoop (fs.dirBlocks n * fs.blockSize)) fun w => w.1 = true) (ends_this ?_)
      fun r g hk' h => ?_
  · by_cases hmode : inodeMode (fs.storedInode n) &&& sIfdir = 0
    · refine (ends_record hm hd (k := 0) fun _ => hawake.mono (by omega)).bind fun pinode g₁ hk₁ h₁ => ?_
      have hsame : inodeMode pinode = inodeMode (fs.storedInode n) :=
        u16_congr (h₁.2.mono le_rfl (by have := hm.sized.record; omega))
      rw [hsame, if_pos hmode]
      exact ends_pure hk₁ (.inl hmode)
    · obtain ⟨m, hroom, hwalk⟩ := hk.rounds (Or.resolve_left · hmode)
      refine (ends_record hm hd (hroom.mono (show 4 * m + 4 + 4 + 1 ≤ _ by omega))).bind
        fun pinode g₁ hk₁ h₁ => ?_
      have hsame : inodeMode pinode = inodeMode (fs.storedInode n) :=
        u16_congr (h₁.2.mono le_rfl (by have := hm.sized.record; omega))
      rw [hsame, if_neg hmode]
      refine (ends_openRaw hm hd h₁.2 h₁.1 hk₁).bind ?_
      rintro c g₂ hk₂ ⟨hg₂, hc, ho, hstart⟩
      rw [← hstart] at hwalk
      refine (ends_endRaw hm hd h₁.2 _ m c g₂ hg₂ hc ho hk₂ hwalk).bind ?_
      rintro res g₃ hk₃ ⟨hg₃, w, hw, hres⟩
      rw [hstart] at hw
      have hsize : g₃.blockSize = fs.blockSize := congrArg Mem.blockSize hg₃.mem
      cases res with
      | past c =>
        have hout : c.dirOffset + 8 + name.length > g₃.blockSize := by
          have := hres.2
          omega
        refine ends_this ?_
        rw [if_pos hout]
        refine ⟨post_undefined, fun ht => ?_⟩
        obtain ⟨w', hw', hP⟩ := ht.resolve_left hmode
        obtain rfl := Option.some.inj (hw.symm.trans hw')
        exact absurd hP (by simp [hres.1])
      | modify previous c =>
        have hdone := Or.inr (a := inodeMode (fs.storedInode n) &&& sIfdir = 0) (⟨w, hw, hres.1⟩ :
          fs.WalksOk n _ fun w => w.1 = true)
        dsimp only
        by_cases hroom' : c.dirOffset + recordLen name.length ≥ fs.blockSize
        · rw [if_pos hroom']
          exact ends_pure (hk₃.mono (by omega)) hdone
        · rw [if_neg hroom']
          refine ends_this ?_
          have hnew := (recordLen_spec name.length).2
          rw [if_neg (by omega)]
          exact (ends_writeDirBlock hm hd h₁.2 hg₃ hk₃ hres.2.nr _).bind fun _ g₄ hk₄ _ => ends_pure hk₄ hdone
  · cases r <;> exact ends_pure hk' h

end Calls

/-- The four calls come back, without an access outside of their buffer. -/
structure CallsReturn (fs : Fs) (n : ℕ) (name : List UInt8) (index inode : ℕ) : Prop where
  find : ∃ r g, (finddirExt2 n name).run fsHandler fs = some (r, g)
  entry : ∃ r g, (readdirExt2 n index).run fsHandler fs = some (r, g)
  unlink : ∃ r g, (unlinkExt2 n name).run fsHandler fs = some (r, g)
  create : ∃ r g, (createEntry n name inode).run fsHandler fs = some (r, g)

/-! ### The chain of records -/

def recordAt (fs : Fs) (n offset : ℕ) : Cursor :=
  ⟨fs.dirData n (offset / fs.blockSize % 256), offset / fs.blockSize % 256, offset % fs.blockSize, offset⟩

/-- Where the records begin: each one says how far away the next is. -/
def offset (fs : Fs) (n : ℕ) : ℕ → ℕ
  | 0 => 0
  | i + 1 => fs.offset n i + (fs.recordAt n (fs.offset n i)).recLen

def record (fs : Fs) (n i : ℕ) : Cursor := fs.recordAt n (fs.offset n i)

def counted (fs : Fs) (n : ℕ) (L : WalkLoop) : ℕ → ℕ
  | 0 => 0
  | i + 1 => L.count (fs.counted n L i) (fs.record n i)

structure Passed (fs : Fs) (n : ℕ) (L : WalkLoop) (i : ℕ) : Prop where
  lt : fs.offset n i < fs.dirBlocks n * fs.blockSize
  goes : ¬ L.last (fs.counted n L i)
  stops : ¬ L.stops (fs.counted n L i) (fs.record n i)

/-- A record that a loop looks at: it has gone on from all the records in front of it. -/
structure Seen (fs : Fs) (n : ℕ) (L : WalkLoop) (i : ℕ) : Prop where
  passed : ∀ j < i, fs.Passed n L j
  lt : fs.offset n i < fs.dirBlocks n * fs.blockSize
  goes : ¬ L.last (fs.counted n L i)

def StopsAt (fs : Fs) (n : ℕ) (L : WalkLoop) (i : ℕ) : Prop :=
  fs.Seen n L i ∧ L.stops (fs.counted n L i) (fs.record n i)

/-- What a loop looks at in a record is inside the block, no block is left out between two records, and a
record that the loop neither stops at nor counts has a length. -/
structure InBounds (fs : Fs) (n : ℕ) (L : WalkLoop) : Prop where
  inside : ∀ i, fs.Seen n L i → fs.offset n i % fs.blockSize + L.need (fs.record n i) ≤ fs.blockSize
  near : ∀ i, fs.Seen n L (i + 1) → fs.offset n (i + 1) / fs.blockSize ≤ fs.offset n i / fs.blockSize + 1
  moves : ∀ i, fs.Passed n L i → fs.Seen n L i →
    L.count (fs.counted n L i) (fs.record n i) = fs.counted n L i → (fs.record n i).recLen ≠ 0

section Chain

variable {S : ℕ → Prop} {fs : Fs} {n i : ℕ} {L : WalkLoop} {P : Bool × Cursor → Prop} (hm : fs.Ready S)
  (hlen : fs.dirBlocks n * fs.blockSize + 2 ^ 16 ≤ 2 ^ 32)

theorem Seen.pass (h : fs.Seen n L i) (hstop : ¬ L.stops (fs.counted n L i) (fs.record n i)) :
    fs.Passed n L i :=
  ⟨h.lt, h.goes, hstop⟩

def coming (fs : Fs) (n : ℕ) : ℕ → Cursor
  | 0 => fs.dirStart n
  | i + 1 => (fs.record n i).skip (fs.record n i).recLen

include hm hlen

theorem coming_offsets (hlt : fs.offset n i < fs.dirBlocks n * fs.blockSize) :
    (fs.coming n (i + 1)).totalOffset = fs.offset n (i + 1) ∧
      (fs.coming n (i + 1)).dirOffset = fs.offset n i % fs.blockSize + (fs.record n i).recLen := by
  have hbs : 0 < fs.blockSize := Nat.pos_of_dvd_of_pos hm.sized.block (by norm_num)
  have hle := hm.size_le
  have hrec : (fs.record n i).recLen < 2 ^ 16 := u16_lt _ _
  have hmod := Nat.mod_lt (fs.offset n i) hbs
  exact ⟨Nat.mod_eq_of_lt (show fs.offset n i + (fs.record n i).recLen < 2 ^ 32 by omega),
    Nat.mod_eq_of_lt (show fs.offset n i % fs.blockSize + (fs.record n i).recLen < 2 ^ 32 by omega)⟩

theorem turned_coming (hlt : ∀ j < i, fs.offset n j < fs.dirBlocks n * fs.blockSize) :
    fs.turned n (fs.coming n i) = fs.record n i ∧
      (∀ j, i = j + 1 → fs.offset n i / fs.blockSize ≤ fs.offset n j / fs.blockSize + 1) ∨
    fs.blockSize ≤ (fs.turned n (fs.coming n i)).dirOffset ∧
      ∃ j, i = j + 1 ∧ fs.offset n j / fs.blockSize + 1 < fs.offset n i / fs.blockSize := by
  have hbs : 0 < fs.blockSize := Nat.pos_of_dvd_of_pos hm.sized.block (by norm_num)
  cases i with
  | zero =>
    refine .inl ⟨?_, fun j hj => absurd hj (by omega)⟩
    rw [coming, turned, if_neg (show ¬ fs.blockSize ≤ (fs.dirStart n).dirOffset from Nat.not_le.mpr hbs)]
    simp [dirStart, record, recordAt, offset]
  | succ i =>
    obtain ⟨htotal, hdir⟩ := coming_offsets hm hlen (hlt i (Nat.lt_succ_self i))
    have hoff : fs.offset n (i + 1) = fs.offset n i + (fs.record n i).recLen := rfl
    have hdm := Nat.div_add_mod (fs.offset n i) fs.blockSize
    have hcomm := Nat.mul_comm fs.blockSize (fs.offset n i / fs.blockSize)
    have hmod := Nat.mod_lt (fs.offset n i) hbs
    rw [turned]
    by_cases hge : fs.blockSize ≤ (fs.coming n (i + 1)).dirOffset
    · rw [if_pos hge]
      rw [hdir] at hge
      by_cases hfar : fs.blockSize ≤ fs.offset n i % fs.blockSize + (fs.record n i).recLen - fs.blockSize
      · refine .inr ⟨by rw [hdir]; exact hfar, i, rfl, ?_⟩
        rw [Nat.lt_iff_add_one_le, Nat.le_div_iff_mul_le hbs, Nat.add_mul, Nat.add_mul]
        omega
      · -- the record is in the next block
        have hsum : fs.offset n (i + 1) =
            (fs.offset n i % fs.blockSize + (fs.record n i).recLen - fs.blockSize) +
              fs.blockSize * (fs.offset n i / fs.blockSize + 1) := by
          rw [Nat.mul_succ]
          omega
        obtain ⟨hdiv, hrest⟩ := (Nat.div_mod_unique hbs).mpr ⟨hsum.symm, Nat.not_le.mp hfar⟩
        refine .inl ⟨?_, fun j hj => ?_⟩
        · have hnr : ((fs.coming n (i + 1)).blockNr + 1) % 256 =
              fs.offset n (i + 1) / fs.blockSize % 256 := by
            rw [hdiv]
            exact Nat.mod_add_mod _ _ _
          rw [hnr, hdir, ← hrest, htotal]
          rfl
        · obtain rfl := Nat.succ.inj hj
          exact hdiv.le
    · rw [if_neg hge]
      rw [hdir] at hge
      have hsum : fs.offset n (i + 1) = (fs.offset n i % fs.blockSize + (fs.record n i).recLen) +
          fs.blockSize * (fs.offset n i / fs.blockSize) := by omega
      obtain ⟨hdiv, hrest⟩ := (Nat.div_mod_unique hbs).mpr ⟨hsum.symm, Nat.not_le.mp hge⟩
      refine .inl ⟨?_, fun j hj => ?_⟩
      · rw [show fs.record n (i + 1) = ⟨(fs.record n i).block, (fs.record n i).blockNr,
            fs.offset n i % fs.blockSize + (fs.record n i).recLen, fs.offset n (i + 1)⟩ by
          rw [record, recordAt, hdiv, hrest]
          rfl, ← hdir, ← htotal]
        rfl
      · obtain rfl := Nat.succ.inj hj
        rw [hdiv]
        omega

theorem coming_lt (h : ∀ j < i, fs.Passed n L j) : (fs.coming n i).totalOffset = fs.offset n i := by
  cases i with
  | zero => rfl
  | succ i => exact (coming_offsets hm hlen (h i (Nat.lt_succ_self i)).lt).1

theorem Seen.round (hi : fs.Seen n L i) :
    (fs.coming n i).totalOffset < fs.dirBlocks n * fs.blockSize ∧ ¬ L.last (fs.counted n L i) :=
  ⟨(coming_lt hm hlen hi.passed).trans_lt hi.lt, hi.goes⟩

/-- A loop that comes to a good end looks only at records of the chain, and inside the blocks. -/
theorem Seen.walks (hneed : ∀ c, 0 < L.need c) (h : fs.WalksOk n L P) : ∀ i, fs.Seen n L i →
    (∃ m, fs.Walks n L P m (fs.counted n L i) (fs.coming n i)) ∧ fs.record n i = fs.turned n (fs.coming n i) ∧
      fs.offset n i % fs.blockSize + L.need (fs.record n i) ≤ fs.blockSize ∧
      ∀ j, i = j + 1 → fs.offset n i / fs.blockSize ≤ fs.offset n j / fs.blockSize + 1 := by
  have hround : ∀ i, fs.Seen n L i → (∃ m, fs.Walks n L P m (fs.counted n L i) (fs.coming n i)) →
      fs.record n i = fs.turned n (fs.coming n i) ∧
      fs.offset n i % fs.blockSize + L.need (fs.record n i) ≤ fs.blockSize ∧
      ∀ j, i = j + 1 → fs.offset n i / fs.blockSize ≤ fs.offset n j / fs.blockSize + 1 := by
    rintro i hi ⟨m, hw⟩
    have hgo := hi.round hm hlen
    obtain ⟨-, -, hfit, -⟩ := Walks.round (t := True) rfl hgo fun _ => ⟨Nat.le_succ m, hw⟩
    have hfit := hfit trivial
    obtain ⟨heq, hnear⟩ | hfar := turned_coming hm hlen fun j hj => (hi.passed j hj).lt
    · rw [heq] at hfit
      exact ⟨heq.symm, hfit, hnear⟩
    · have := hneed (fs.turned n (fs.coming n i))
      have := hfar.1
      omega
  intro i
  induction i with
  | zero => exact fun hi => ⟨⟨_, h⟩, hround 0 hi ⟨_, h⟩⟩
  | succ i ih =>
    intro hi
    have hpass := hi.passed i (Nat.lt_succ_self i)
    have hseen : fs.Seen n L i := ⟨fun j hj => hi.passed j (hj.trans (Nat.lt_succ_self i)), hpass.lt,
      hpass.goes⟩
    obtain ⟨⟨m, hw⟩, heq, -, -⟩ := ih hseen
    have hgo := hseen.round hm hlen
    obtain ⟨m', -, -, -, hnext⟩ := Walks.round (t := True) heq hgo fun _ => ⟨Nat.le_succ m, hw⟩
    have hw' : ∃ m, fs.Walks n L P m (fs.counted n L (i + 1)) (fs.coming n (i + 1)) :=
      ⟨m', (hnext hpass.stops trivial).2⟩
    exact ⟨hw', hround (i + 1) hi hw'⟩

theorem InBounds.walks {B : ℕ} (h : fs.InBounds n L)
    (hcount : ∀ i c, ¬ L.last i → L.count i c = i ∨ L.count i c = i + 1 ∧ i < B)
    (hstop : ∀ i, fs.StopsAt n L i → P (true, fs.record n i))
    (hend : ∀ i, (∀ j < i, fs.Passed n L j) → ¬ fs.Seen n L i → P (false, fs.coming n i)) (M : ℕ) : ∀ i,
    (∀ j < i, fs.Passed n L j) →
      (fs.dirBlocks n * fs.blockSize - fs.offset n i) + (B - fs.counted n L i) ≤ M →
    fs.Walks n L P (M + 1) (fs.counted n L i) (fs.coming n i) := by
  induction M with
  | zero =>
    intro i hpassed hM
    by_cases hi : fs.Seen n L i
    · have := hi.lt
      omega
    · refine ⟨_, walk_end fun hgo => hi ⟨hpassed, ?_, hgo.2⟩, hend i hpassed hi⟩
      rw [← coming_lt hm hlen hpassed]
      exact hgo.1
  | succ M ih =>
    intro i hpassed hM
    by_cases hi : fs.Seen n L i
    · have hgo := hi.round hm hlen
      have heq : fs.record n i = fs.turned n (fs.coming n i) := by
        obtain ⟨heq, -⟩ | hfar := turned_coming hm hlen fun j hj => (hpassed j hj).lt
        · exact heq.symm
        · obtain ⟨j, rfl, hskips⟩ := hfar.2
          exact absurd (h.near j hi) (Nat.not_le.mpr hskips)
      by_cases hs : L.stops (fs.counted n L i) (fs.record n i)
      · exact ⟨_, walk_stop heq hgo (h.inside i hi) hs, hstop i ⟨hi, hs⟩⟩
      · have hpass := hi.pass hs
        unfold Walks
        rw [walk_next heq hgo (h.inside i hi) hs]
        refine ih (i + 1) (fun j hj => ?_) ?_
        · obtain hj | rfl := Nat.lt_succ_iff_lt_or_eq.mp hj
          · exact hpassed j hj
          · exact hpass
        · have hoff : fs.offset n (i + 1) = fs.offset n i + (fs.record n i).recLen := rfl
          have hcnt : fs.counted n L (i + 1) = L.count (fs.counted n L i) (fs.record n i) := rfl
          have hlt := hi.lt
          obtain hsame | ⟨hmore, hB⟩ := hcount _ (fs.record n i) hi.goes
          · have := h.moves i hpass hi hsame
            omega
          · omega
    · refine ⟨_, walk_end fun hgo => hi ⟨hpassed, ?_, hgo.2⟩, hend i hpassed hi⟩
      rw [← coming_lt hm hlen hpassed]
      exact hgo.1

theorem WalksOk.inBounds (hneed : ∀ c, 0 < L.need c) (h : fs.WalksOk n L P) : fs.InBounds n L where
  inside i hi := (Seen.walks hm hlen hneed h i hi).2.2.1
  near i hi := (Seen.walks hm hlen hneed h (i + 1) hi).2.2.2 i rfl
  moves i hpass hi hsame hzero := by
    obtain ⟨⟨m, hw⟩, heq, hfit, -⟩ := Seen.walks hm hlen hneed h i hi
    have hgo := hi.round hm hlen
    obtain ⟨m', -, -, -, hnext⟩ := Walks.round (t := True) heq hgo fun _ => ⟨Nat.le_succ m, hw⟩
    obtain ⟨-, w, hw', -⟩ := hnext hpass.stops trivial
    have hin : (fs.record n i).dirOffset < fs.blockSize := by
      have := hneed (fs.record n i)
      have hfit' : (fs.record n i).dirOffset + L.need (fs.record n i) ≤ fs.blockSize := hfit
      omega
    have hle := hm.size_le
    have hlt := hi.lt
    have hskip : (fs.record n i).skip (fs.record n i).recLen = fs.record n i := by
      rw [hzero, Cursor.skip, Nat.add_zero, Nat.add_zero, Nat.mod_eq_of_lt (by omega),
        Nat.mod_eq_of_lt (show (fs.record n i).totalOffset < 2 ^ 32 from hi.lt.trans (by omega))]
    rw [hsame, hskip, walk_stuck ⟨hi.lt, hi.goes⟩ hin hpass.stops hsame hskip] at hw'
    cases hw'

theorem WalksOk.stops (hneed : ∀ c, 0 < L.need c) (h : fs.WalksOk n L P) (hi : fs.StopsAt n L i) :
    P (true, fs.record n i) := by
  obtain ⟨⟨m, hw⟩, heq, -, -⟩ := Seen.walks hm hlen hneed h i hi.1
  obtain ⟨-, -, -, hP, -⟩ := Walks.round (t := True) heq (hi.1.round hm hlen) fun _ => ⟨Nat.le_succ m, hw⟩
  exact hP hi.2 trivial

omit hm hlen in
theorem walk_mono {m m' k : ℕ} {c : Cursor} {w : Bool × Cursor} (h : fs.walk n L m k c = some w)
    (hle : m ≤ m') :
    fs.walk n L m' k c = some w := by
  induction m generalizing m' k c with
  | zero => cases h
  | succ m ih =>
    obtain ⟨m', rfl⟩ : ∃ x, m' = x + 1 := ⟨m' - 1, by omega⟩
    by_cases hgo : c.totalOffset < fs.dirBlocks n * fs.blockSize ∧ ¬ L.last k
    · rw [walk_record rfl hgo] at h ⊢
      split_ifs at h ⊢ with hfit hstop
      · exact h
      · exact ih h (by omega)
    · rw [walk_end hgo] at h ⊢
      exact h

section Bounded

variable {B : ℕ} (hneed : ∀ c, 0 < L.need c)
  (hcount : ∀ i c, ¬ L.last i → L.count i c = i ∨ L.count i c = i + 1 ∧ i < B)
include hneed hcount

theorem inBounds_taken_iff (hB : fs.dirBlocks n * fs.blockSize + B < 2 ^ 32) :
    fs.WalksOk n L fs.Taken ↔ fs.InBounds n L ∧ ∀ i, fs.StopsAt n L i → fs.Whole (fs.record n i) := by
  constructor
  · exact fun h => ⟨h.inBounds hm hlen hneed, fun i hi => h.stops hm hlen hneed hi rfl⟩
  · rintro ⟨hsound, hwhole⟩
    obtain ⟨w, hw, hP⟩ := hsound.walks (P := fs.Taken) hm hlen hcount (fun i hi _ => hwhole i hi)
      (fun i _ _ h => absurd h Bool.false_ne_true) (fs.dirBlocks n * fs.blockSize + B) 0 (fun j hj =>
        absurd hj (by omega))
      (Nat.add_le_add (Nat.sub_le _ _) (Nat.sub_le _ _))
    exact ⟨w, walk_mono hw hB, hP⟩

theorem inBounds_stop_iff (hB : fs.dirBlocks n * fs.blockSize + B < 2 ^ 32) :
    (fs.WalksOk n L fun w => w.1 = true) ↔ fs.InBounds n L ∧ ∃ i, fs.StopsAt n L i := by
  have hstart : (fs.dirBlocks n * fs.blockSize - fs.offset n 0) + (B - fs.counted n L 0) ≤ fs.dirBlocks
    n * fs.blockSize + B :=
    Nat.add_le_add (Nat.sub_le _ _) (Nat.sub_le _ _)
  constructor
  · intro h
    have hsound := h.inBounds hm hlen hneed
    refine ⟨hsound, ?_⟩
    by_contra hno
    obtain ⟨w, hw, hfalse⟩ := hsound.walks (P := fun w => w.1 = false) hm hlen hcount (fun i hi =>
      absurd ⟨i, hi⟩ hno)
      (fun _ _ _ => rfl) _ 0 (fun j hj => absurd hj (by omega)) hstart
    obtain ⟨w', hw', htrue⟩ := h
    obtain rfl := Option.some.inj ((walk_mono hw hB).symm.trans hw')
    rw [hfalse] at htrue
    exact Bool.false_ne_true htrue
  · rintro ⟨hsound, i, hi⟩
    obtain ⟨w, hw, hP⟩ := hsound.walks (P := fun w => w.1 = true) hm hlen hcount (fun _ _ => rfl)
      (fun i' hpassed hno => by
        -- the loop is not at its end in front of the record, and does not come behind it
        exfalso
        obtain hlt | rfl | hgt := Nat.lt_trichotomy i' i
        · exact hno ⟨hpassed, (hi.1.passed i' hlt).lt, (hi.1.passed i' hlt).goes⟩
        · exact hno hi.1
        · exact (hpassed i hgt).stops hi.2) _ 0 (fun j hj => absurd hj (by omega)) hstart
    exact ⟨w, walk_mono hw hB, hP⟩

/-- With the clock's room for a round for each byte of the directory and each count. -/
theorem InBounds.ticks (hB : fs.dirBlocks n * fs.blockSize + B < 2 ^ 32)
    (hawake : fs.Awake (4 * (fs.dirBlocks n * fs.blockSize + B + 1) + 14)) : fs.Ticks n L P := by
  intro h
  have hstart : (fs.dirBlocks n * fs.blockSize - fs.offset n 0) + (B - fs.counted n L 0) ≤ fs.dirBlocks
    n * fs.blockSize + B :=
    Nat.add_le_add (Nat.sub_le _ _) (Nat.sub_le _ _)
  obtain ⟨w, hw, -⟩ := (h.inBounds hm hlen hneed).walks (P := fun _ => True) hm hlen hcount (fun _ _ =>
    trivial)
    (fun _ _ _ => trivial) _ 0 (fun j hj => absurd hj (by omega)) hstart
  obtain ⟨w', hw', hP⟩ := h
  obtain rfl := Option.some.inj ((walk_mono hw hB).symm.trans hw')
  exact ⟨_, hB, hawake, w, hw, hP⟩

end Bounded

end Chain

theorem findLoop_need (name : List UInt8) (c : Cursor) : 0 < (findLoop name).need c := by
  simp only [findLoop]
  split_ifs <;> omega

theorem entryLoop_count (index i : ℕ) (c : Cursor) (h : ¬ (entryLoop index).last i) :
    (entryLoop index).count i c = i ∨ (entryLoop index).count i c = i + 1 ∧ i < index + 1 := by
  simp only [entryLoop, decide_eq_true_eq] at h ⊢
  split_ifs
  · exact .inr ⟨rfl, by omega⟩
  · exact .inl rfl

theorem rowFs_ticks (d tail inode n : ℕ) (L : WalkLoop) (P : Bool × Cursor → Prop) :
    (rowFs d tail inode).Ticks n L P :=
  fun h => ⟨_, le_rfl, RowOk.awake _ _ _ _, h⟩

theorem WalksOk.of_any {fs : Fs} {n : ℕ} {L : WalkLoop} {P : Bool × Cursor → Prop} [DecidablePred P]
    (h : (fs.walk n L (2 ^ 32) 0 (fs.dirStart n)).any (fun w => decide (P w)) = true) : fs.WalksOk n L P := by
  obtain ⟨hsome, hP⟩ := (Option.any_eq_true_iff_get _ _).mp h
  exact ⟨_, (Option.some_get hsome).symm, of_decide_eq_true hP⟩

/-- The root directory has one block, and the first record in it has length 0. -/
theorem stuck_directory : (rowFs 1 65524 3).Directory (rowBlocks 1) 2 := by
  have hslot : inodeSlot (rowFs 1 65524 3).toMem 2 = (5, 128) ∧ inodeSlot (rowFs 1 65524 3).toMem 0 =
    (4194308, 896) := by decide +kernel
  have hone : (rowFs 1 65524 3).dirBlocks 2 = 1 := by decide +kernel
  have hown : ∀ b, rowBlocks 1 b → (rowFs 1 65524 3).Own (rowBlocks 1) b := by
    intro b hb
    unfold rowBlocks at hb
    refine ⟨hb, by omega, ?_⟩
    rw [strayBlock, hslot.2]
    dsimp only
    omega
  refine ⟨by decide, ?_, by decide +kernel, by rw [hone]; exact one_pos, by decide +kernel,
    fun l hl k hk => ?_, fun l hl => ?_⟩
  · rw [hslot.1]
    exact hown 5 (by unfold rowBlocks; omega)
  · rw [hone] at hl
    rw [spine_direct (by omega)] at hk
    simp at hk
  · rw [hone] at hl
    obtain rfl : l = 0 := by omega
    rw [show (rowFs 1 65524 3).dirBlock 2 0 = 20 by decide +kernel]
    exact hown 20 (by unfold rowBlocks; omega)

/-- No loop that passes over the record comes to an end. -/
theorem stuck_walks {L : WalkLoop} {P : Bool × Cursor → Prop} (hlast : L.last 0 = false)
    (hstop : L.stops 0 ((rowFs 1 65524 3).dirStart 2) = false)
    (hcount : L.count 0 ((rowFs 1 65524 3).dirStart 2) = 0) :
    ¬ (rowFs 1 65524 3).WalksOk 2 L P := by
  have hlt : ((rowFs 1 65524 3).dirStart 2).totalOffset < (rowFs 1 65524 3).dirBlocks
    2 * (rowFs 1 65524 3).blockSize := by
    decide +kernel
  have hrec : ((rowFs 1 65524 3).dirStart 2).recLen = 0 := by decide +kernel
  have hskip : ((rowFs 1 65524 3).dirStart 2).skip ((rowFs 1 65524 3).dirStart 2).recLen =
    (rowFs 1 65524 3).dirStart 2 := by
    rw [hrec]
    rfl
  rintro ⟨w, hw, -⟩
  rw [walk_stuck ⟨hlt, by simp [hlast]⟩ (by decide : 0 < 1024) (by simp [hstop]) hcount hskip] at hw
  cases hw

end Fs

end ChiffOS.Ext2
