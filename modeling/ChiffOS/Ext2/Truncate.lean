import ChiffOS.Ext2.FileRuns

/-! Opening a file with `O_TRUNC` and writing to it afterwards. The truncation sets the length to zero and
leaves the blocks to the file, so the bytes behind the end come back with the next longer file. -/

namespace ChiffOS.Ext2

open Buf

structure WriteCall where
  offset : ℕ
  size : ℕ
  buffer : Buf

def writesExt2 (n : ℕ) : List WriteCall → Ext2M Unit
  | [] => pure ()
  | w :: ws => do
    let _ ← writeExt2 n w.offset w.size w.buffer
    writesExt2 n ws

def truncateAndWrite (n flags : ℕ) (ws : List WriteCall) : Ext2M Unit := do
  openExt2 n flags
  writesExt2 n ws

def Covered (ws : List WriteCall) (pos : ℕ) : Prop := ∃ w ∈ ws, w.offset ≤ pos ∧ pos < w.offset + w.size

def lengthAfter (ws : List WriteCall) : ℕ := ws.foldr (fun w l => max (w.offset + w.size) l) 0

def ReadsZeros (fs : Fs) (n flags : ℕ) (ws : List WriteCall) : Prop :=
  ∃ fs', (truncateAndWrite n flags ws).run fsHandler fs = some ((), fs') ∧
    ∀ start count buffer, start + count ≤ fs'.disk.fileLength n → ∃ out fs'',
      (readExt2 n start count buffer).run fsHandler fs' = some ((count, out), fs'') ∧
      ∀ i < count, ¬ Covered ws (start + i) → out i = 0

variable {S I : ℕ → Prop} {d d' : Disk} {n L : ℕ} {ws : List WriteCall}

/-- Block accesses of a write that ends before block `L + 1`. -/
def Mem.roundCost (m : Mem) (L : ℕ) : ℕ := (L + 1) * (3 * m.bgdBlockSpan + 18) + 9 * L + 20

theorem writeCost_le {offset size : ℕ} (h : d.lastBlock offset size ≤ L) :
    d.writeCost n offset size ≤ d.roundCost L := by
  unfold Disk.writeCost Mem.roundCost
  have h1 : d.lastBlock offset size + 1 - d.fileBlocks n ≤ L + 1 := by omega
  have h2 := Nat.mul_le_mul_right (3 * d.bgdBlockSpan + 18) h1
  have h3 : d.lastBlock offset size - offset / d.blockSize ≤ L := (Nat.sub_le _ _).trans h
  omega

theorem openExt2_spec (hr : Ready S I n d) {flags : ℕ} (hf : flags &&& oTrunc ≠ 0) :
    Does (openExt2 n flags) d 3 fun _ d' =>
      Changes S I n L d d' ∧ d'.fileLength n = 0 ∧ ∀ pos, d'.fileByte n pos = d.fileByte n pos := by
  unfold openExt2
  rw [if_pos hf]
  refine (hr.wf.readInode_spec hr.usable hr.inode hr.found).bind (m := 2) ?_
  rintro ino d₁ ⟨rfl, hold⟩
  refine (hr.wf.writeInode_spec hr.usable hr.inode hr.found _).bind (m := 0) ?_
  rintro - d₂ rfl
  obtain ⟨hc, hlen, -, hbyte⟩ := set_length (L := L) hr hold (show 0 < 2 ^ 32 by norm_num)
  exact .pure ⟨hc, hlen, hbyte⟩

def Fit (d : Disk) (L : ℕ) (ws : List WriteCall) : Prop :=
  ∀ w ∈ ws, w.offset + w.size < 2 ^ 32 ∧ d.lastBlock w.offset w.size ≤ L

theorem Changes.roundCost (h : Changes S I n L d d') : d'.roundCost L = d.roundCost L := by
  unfold Mem.roundCost
  rw [h.shape.span]

theorem Changes.fit (h : Changes S I n L d d') (hfit : Fit d L ws) : Fit d' L ws := by
  intro w hw
  obtain ⟨h1, h2⟩ := hfit w hw
  unfold Mem.lastBlock at h2 ⊢
  rw [h.shape.blockSize]
  exact ⟨h1, h2⟩

theorem writesExt2_spec (ws : List WriteCall) : ∀ d, Ready S I n d → Fits n L d → Fit d L ws →
    Does (writesExt2 n ws) d (ws.length * d.roundCost L) fun _ d' => Changes S I n L d d' ∧
      d'.fileLength n = max (d.fileLength n) (lengthAfter ws) ∧
      ∀ pos, ¬ Covered ws pos → d'.fileByte n pos = d.fileByte n pos := by
  induction ws with
  | nil =>
    intro d hr _ _
    refine .pure ⟨⟨hr.wf, .refl _, fun m _ _ => .refl d m, hr.regular, rfl⟩, ?_, fun _ _ => rfl⟩
    simp [lengthAfter]
  | cons w ws ih =>
    intro d hr hf hfit
    obtain ⟨⟨hlt, hL⟩, hfit⟩ := List.forall_mem_cons.mp hfit
    have hcost := writeCost_le (n := n) hL
    refine (((writeExt2_upTo hr hlt hL hf w.buffer).mono hcost fun _ _ hq => hq).bind
      (m := ws.length * d.roundCost L) ?_).mono ?_ fun _ _ hq => hq
    · rintro r d₁ ⟨-, hc, hlen, hbyte⟩
      rw [← hc.roundCost]
      refine (ih d₁ (hc.ready hr) (hc.fits hf) (hc.fit hfit)).mono le_rfl ?_
      rintro - d₂ ⟨hc₂, hlen₂, hbyte₂⟩
      refine ⟨hc.trans hc₂, ?_, ?_⟩
      · rw [hlen₂, hlen, max_assoc]
        rfl
      · intro pos hpos
        have hno : ¬ Covered ws pos := fun ⟨w', hw', h⟩ => hpos ⟨w', List.mem_cons_of_mem w hw', h⟩
        have hout : ¬ (w.offset ≤ pos ∧ pos < w.offset + w.size) := fun h => hpos ⟨w, List.mem_cons_self, h⟩
        rw [hbyte₂ pos hno, hbyte, if_neg hout]
    · rw [List.length_cons, Nat.succ_mul]
      omega

theorem truncateAndWrite_spec (hr : Ready S I n d) {flags : ℕ} (hflags : flags &&& oTrunc ≠ 0)
    (hf : Fits n L d)
    (hfit : Fit d L ws) : Does (truncateAndWrite n flags ws) d (3 + ws.length * d.roundCost L) fun _ d' =>
      Changes S I n L d d' ∧ d'.fileLength n = lengthAfter ws ∧
      ∀ pos, ¬ Covered ws pos → d'.fileByte n pos = d.fileByte n pos := by
  refine (openExt2_spec (L := L) hr hflags).bind ?_
  rintro - d₁ ⟨hc, hlen, hbyte⟩
  rw [← hc.roundCost]
  refine (writesExt2_spec ws d₁ (hc.ready hr) (hc.fits hf) (hc.fit hfit)).mono le_rfl ?_
  rintro - d₂ ⟨hc₂, hlen₂, hbyte₂⟩
  refine ⟨hc.trans hc₂, ?_, ?_⟩
  · rw [hlen₂, hlen, Nat.zero_max]
  · intro pos hpos
    rw [hbyte₂ pos hpos, hbyte]

/-- Old bytes stay away just when there are none: what no write covers was zero before. The volume is well
formed, it has the blocks for the writes, and its clock does not run out. -/
theorem truncated_reads_zeros_iff (I : ℕ → Prop) (fs : Fs) (n flags L : ℕ) (ws : List WriteCall)
    (hflags : flags &&& oTrunc ≠ 0) (hw : WellFormed fs.disk.Proper I fs.disk) (hn : I n)
    (hfound : ¬ fs.disk.inodesPerGroup ∣ n) (hreg : Regular (fs.disk.record n)) (hf : Fits n L fs.disk)
    (hfit : Fit fs.disk L ws) (hbelow : Below I fs.disk) (hcache : fs.Good fs.Usable)
    (hclock : fs.ClockRoom (3 + ws.length * fs.roundCost L + fs.readCost 0 (lengthAfter ws))) :
    ReadsZeros fs n flags ws ↔ ∀ pos < lengthAfter ws, ¬ Covered ws pos → fs.disk.fileByte n pos = 0 := by
  have hr : Ready fs.Usable I n fs.disk := ⟨hw.usable hbelow, fun _ hb => hb, hn, hfound, hreg⟩
  obtain ⟨u, fs₁, v₁, hrun₁, hshow₁, hc₁, ht₁, hch, hlen, hbytes⟩ :=
    (Fs.shows_self hr.wf.geometry.sizeOk hcache).does (truncateAndWrite_spec hr hflags hf hfit) fun hc => by
      have hroom := hclock hc
      change fs.cacheTime + (3 + ws.length * fs.roundCost L) < uint32Max
      omega
  have hr₁ := hch.ready hr
  have hself := hshow₁.sameFile hr₁.wf hr₁.usable hr₁.inode
  have hlen₁ : fs₁.disk.fileLength n = lengthAfter ws :=
    (hself.fileLength hr₁.wf.geometry.inode_ge).trans hlen
  -- what any read gives after the writes
  have hread : ∀ start count buffer, start + count ≤ lengthAfter ws → ∃ out fs₂,
      (readExt2 n start count buffer).run fsHandler fs₁ = some ((count, out), fs₂) ∧
      ∀ i < count, ¬ Covered ws (start + i) → out i = fs.disk.fileByte n (start + i) := by
    intro start count buffer hle
    rw [← hlen] at hle
    obtain ⟨⟨c, out⟩, fs₂, v₂, hrun₂, -, -, -, -, hcount, hout⟩ :=
      hshow₁.does (readExt2_spec hr₁ hle buffer) fun hc => by
        have hroom := hclock (hc₁ ▸ hc)
        change v₁.ticks ≤ fs.cacheTime + (3 + ws.length * fs.roundCost L) at ht₁
        have hcost : v₁.readCost start count ≤ fs.readCost 0 (lengthAfter ws) := by
          unfold Mem.readCost
          rw [show v₁.blockSize = fs.blockSize from hch.shape.blockSize, ← hlen, Nat.zero_add, Nat.zero_div,
            Nat.sub_zero]
          exact Nat.add_le_add_right
            (Nat.mul_le_mul_left 4 ((Nat.sub_le _ _).trans (Nat.div_le_div_right hle))) 5
        omega
    obtain rfl : c = count := hcount
    refine ⟨out, fs₂, hrun₂, ?_⟩
    intro i hi hno
    rw [show out i = v₁.fileByte n (start + i) from hout i hi, hbytes _ hno]
  constructor
  · rintro ⟨fs', hrun, hzeros⟩ pos hpos hno
    obtain rfl : fs₁ = fs' := (Prod.mk.inj (Option.some.inj (hrun₁.symm.trans hrun))).2
    obtain ⟨out, fs₂, hr₂, hz⟩ := hzeros pos 1 (fun _ => 0) (by omega)
    obtain ⟨out', fs₂', hr₂', hb⟩ := hread pos 1 (fun _ => 0) hpos
    obtain rfl : out = out' := (Prod.mk.inj (Prod.mk.inj (Option.some.inj (hr₂.symm.trans hr₂'))).1).2
    rw [← hz 0 Nat.one_pos hno, hb 0 Nat.one_pos hno, Nat.add_zero]
  · intro hzero
    refine ⟨fs₁, hrun₁, ?_⟩
    intro start count buffer hle
    rw [hlen₁] at hle
    obtain ⟨out, fs₂, hr₂, hb⟩ := hread start count buffer hle
    refine ⟨out, fs₂, hr₂, ?_⟩
    intro i hi hno
    rw [hb i hi hno]
    exact hzero _ (by omega) hno

/-- The file is truncated and a hundred bytes are written to its start. -/
theorem truncated_reads_zeros_start : ReadsZeros smallFs 3 0x400 [⟨0, 100, fun _ => 7⟩] := by
  have hw := smallFs_wellFormed
  refine (truncated_reads_zeros_iff (fun n => 1 ≤ n ∧ n ≤ 8) smallFs 3 0x400 0 _ (by decide) { hw with
      mem := fun r hr => ⟨(hw.mem r hr).1, (hw.mem r hr).2.1⟩
      free_mem := fun b h => ⟨(hw.free_mem b h).1, (hw.free_mem b h).2.1⟩ }
    (by decide) (by decide) (by decide +kernel) ⟨by decide, by decide, ?_⟩ ?_
    ⟨fun r hr => (hw.mem r hr).2.2, fun b h => (hw.free_mem b h).2.2⟩
    (Fs.good_emptyCache (n := 2) (by norm_num) (by decide) (Mem.usable_noAlias ⟨0, by norm_num, rfl⟩) rfl)
    fun _ => by decide +kernel).mpr ?_
  · rw [need_direct (by decide)]
    decide +kernel
  · intro w hw
    rw [List.mem_singleton.mp hw]
    decide
  · intro pos hpos hno
    exact absurd ⟨_, List.mem_singleton_self _, Nat.zero_le _, hpos⟩ hno

theorem truncated_byte_returns : ¬ ReadsZeros smallFs 3 0x400 [⟨5, 1, fun _ => 9⟩] := by
  rintro ⟨fs', hrun, hzeros⟩
  have hlen : ((truncateAndWrite 3 0x400 [⟨5, 1, fun _ => 9⟩]).run fsHandler smallFs).map
      (fun r => r.2.disk.fileLength 3) = some 6 := by decide +kernel
  have hbyte : ((truncateAndWrite 3 0x400 [⟨5, 1, fun _ => 9⟩]).run fsHandler smallFs).bind
      (fun r => ((readExt2 3 0 1 fun _ => 0).run fsHandler r.2).map fun x => x.1.2 0) =
        some 1 := by decide +kernel
  rw [hrun] at hlen hbyte
  have hsix : fs'.disk.fileLength 3 = 6 := Option.some.inj hlen
  obtain ⟨out, fs₂, hread, hz⟩ := hzeros 0 1 (fun _ => 0) (by
    rw [hsix]
    norm_num)
  have hno : ¬ Covered [⟨5, 1, fun _ => 9⟩] (0 + 0) := by
    rintro ⟨w, hw, h1, -⟩
    rw [List.mem_singleton.mp hw] at h1
    exact absurd h1 (by decide)
  rw [Option.bind_some, hread] at hbyte
  exact absurd ((hz 0 Nat.one_pos hno).symm.trans (Option.some.inj hbyte)) (by decide)

end ChiffOS.Ext2
