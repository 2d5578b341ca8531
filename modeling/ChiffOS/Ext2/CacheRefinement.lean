import ChiffOS.Ext2.CacheCoherence

/-! The cached file system against the uncached one. A call on a coherent cache answers what
the same call answers on the synced device, and leaves a coherent cache whose synced
device is the device the uncached call leaves. -/

namespace ChiffOS.Ext2

open Buf List Option

namespace Fs

/-- The device once the cache is written back. -/
def synced (fs : Fs) : Buf := fs.ext2Sync.blockDevice

/-- The cache is absent, or it has an entry and is coherent on the blocks in use. -/
structure Good (S : ℕ → Prop) (fs : Fs) : Prop where
  size : fs.blockSize ∣ 2 ^ 32
  apart : NoAlias fs.blockSize S
  cache : ∀ dc, fs.diskCache = some dc → dc ≠ [] ∧ Coherent fs.blockSize S fs.blockDevice dc

/-- What a call into the block layer leaves alone. -/
structure Frame (fs fs' : Fs) : Prop where
  mem : fs'.toMem = fs.toMem
  heap : fs'.heap = fs.heap
  cached : fs'.diskCache.isSome = fs.diskCache.isSome

theorem synced_none {fs : Fs} (h : fs.diskCache = none) : fs.synced = fs.blockDevice := by
  simp [synced, ext2Sync, h]

theorem synced_some {fs : Fs} {dc : List CacheEntry} (h : fs.diskCache = some dc) :
    fs.synced = flush fs.blockSize fs.blockDevice dc := by
  simp [synced, ext2Sync, h, flush]

def evicted (fs : Fs) (e : CacheEntry) : Buf :=
  if e.dirty then writeFs fs.blockDevice (blockOffset fs.blockSize e.blockNo) fs.blockSize e.block
  else fs.blockDevice

/-- The file system with a new device and a new entry `k`, one tick later. -/
def renewed (fs : Fs) (dc : List CacheEntry) (dev : Buf) (k : ℕ) (e : CacheEntry) : Fs :=
  { fs with blockDevice := dev, diskCache := some (dc.set k e), cacheTime := (fs.cacheTime + 1) % 2 ^ 32 }

section Calls

variable {S : ℕ → Prop} {fs : Fs} {dc : List CacheEntry} {b : ℕ} {buf : Buf}

variable {e : CacheEntry}

theorem evicted_out (fs : Fs) {a : ℕ} (ha : ¬ Covers fs.blockSize a e) :
    fs.evicted e a = fs.blockDevice a := by
  unfold evicted
  split_ifs with hd
  · exact blit_out (by simp only [Covers, hd, true_and] at ha; omega)
  · rfl

theorem evicted_in (fs : Fs) {a : ℕ} (ha : Covers fs.blockSize a e) :
    fs.evicted e a = e.block (a - blockOffset fs.blockSize e.blockNo) := by
  unfold evicted
  rw [if_pos ha.1]
  exact blit_in ha.2.1 ha.2.2

variable {k : ℕ}

theorem readBlock_hit (hb0 : b ≠ 0) (hdc : fs.diskCache = some dc)
    (hs : cacheScan b dc 0 none uint32Max = .inl k) (hk : dc[k]? = some e) :
    fs.readBlock b buf = some ((.success, buf.blit 0 e.block fs.blockSize),
      fs.renewed dc fs.blockDevice k { e with lastUse := fs.cacheTime }) := by
  simp [readBlock, hb0, hdc, hs, hk, getCacheTime, setEntry, renewed]

theorem readBlock_miss (hb0 : b ≠ 0) (hdc : fs.diskCache = some dc)
    (hs : cacheScan b dc 0 none uint32Max = .inr (some k)) (hk : dc[k]? = some e) :
    fs.readBlock b buf =
      let block := readFs (fs.evicted e) (blockOffset fs.blockSize b) fs.blockSize e.block
      some ((.success, buf.blit 0 block fs.blockSize),
        fs.renewed dc (fs.evicted e) k
          { blockNo := b, lastUse := fs.cacheTime, dirty := false, block := block }) := by
  cases hd : e.dirty <;>
    simp [readBlock, hb0, hdc, hs, hk, getCacheTime, setEntry, renewed, makeRoom, cacheFlushDirty,
      evicted, hd]

theorem writeBlock_hit (hb0 : b ≠ 0) (hdc : fs.diskCache = some dc)
    (hs : cacheScan b dc 0 none uint32Max = .inl k) (hk : dc[k]? = some e) :
    fs.writeBlock b buf = some (.success, fs.renewed dc fs.blockDevice k
      { e with lastUse := fs.cacheTime, dirty := true, block := e.block.blit 0 buf fs.blockSize }) := by
  simp [writeBlock, hb0, hdc, hs, hk, getCacheTime, setEntry, renewed]

theorem writeBlock_miss (hb0 : b ≠ 0) (hdc : fs.diskCache = some dc)
    (hs : cacheScan b dc 0 none uint32Max = .inr (some k)) (hk : dc[k]? = some e) :
    fs.writeBlock b buf = some (.success, fs.renewed dc (fs.evicted e) k
      { blockNo := b, lastUse := fs.cacheTime, dirty := true, block :=
        e.block.blit 0 buf fs.blockSize }) := by
  cases hd : e.dirty <;>
    simp [writeBlock, hb0, hdc, hs, hk, getCacheTime, setEntry, renewed, makeRoom, cacheFlushDirty,
      evicted, hd]

theorem renewed_frame (hdc : fs.diskCache = some dc) (dev : Buf) (k : ℕ) (e : CacheEntry) :
    Frame fs (fs.renewed dc dev k e) := ⟨rfl, rfl, by simp [renewed, hdc]⟩

/-- The search of a call for the block: entry `k` holds it, or no entry does and entry `k` goes. `dev` is
the device then. -/
inductive Picks (fs : Fs) (dc : List CacheEntry) (b k : ℕ) (e : CacheEntry) : (dev : Buf) → Prop where
  | hit (hs : cacheScan b dc 0 none uint32Max = .inl k) (hk : dc[k]? = some e) (hb : e.blockNo = b) :
    Picks fs dc b k e fs.blockDevice
  | miss (hs : cacheScan b dc 0 none uint32Max = .inr (some k)) (hk : dc[k]? = some e)
    (hno : ∀ f ∈ dc, f.blockNo ≠ b) : Picks fs dc b k e (fs.evicted e)

theorem picks_or (fs : Fs) (dc : List CacheEntry) (b : ℕ) :
    (∃ k e dev, Picks fs dc b k e dev) ∨
      cacheScan b dc 0 none uint32Max = .inr none ∧ ∀ e ∈ dc, uint32Max ≤ e.lastUse := by
  cases hs : cacheScan b dc 0 none uint32Max with
  | inl k =>
    obtain ⟨-, e, he, heb⟩ := cacheScan_hit hs
    exact .inl ⟨k, e, _, .hit hs (by simpa using he) heb⟩
  | inr r =>
    obtain ⟨h1, h2, h3⟩ := cacheScan_miss hs
    cases r with
    | none => exact .inr ⟨rfl, (h3 rfl).2⟩
    | some k =>
      have hk : k < dc.length := by
        rcases h2 k rfl with h | h
        · simp at h
        · omega
      exact .inl ⟨k, dc[k], _, .miss hs (List.getElem?_eq_getElem hk) h1⟩

/-- The blocks of `S` are stored apart, and the cache holds no wrong copy of one. -/
structure Sound (S : ℕ → Prop) (fs : Fs) : Prop where
  size : fs.blockSize ∣ 2 ^ 32
  apart : NoAlias fs.blockSize S
  cache : ∀ dc, fs.diskCache = some dc → Ext2.Sound fs.blockSize S fs.blockDevice dc

theorem Good.sound (hg : fs.Good S) {T : ℕ → Prop} (hT : ∀ b, T b ↔ b ≠ 0 ∧ S b) : fs.Sound T where
  size := hg.size
  apart a b ha hb := hg.apart a b ((hT a).mp ha).2 ((hT b).mp hb).2
  cache dc hdc := (hg.cache dc hdc).2.sound hT

section Renew

variable {k : ℕ} {e x : CacheEntry} {dev : Buf}

theorem Picks.entry (hp : Picks fs dc b k e dev) : dc[k]? = some e := by
  cases hp <;> assumption

theorem Picks.out (hp : Picks fs dc b k e dev) {a : ℕ} (ha : ¬ Covers fs.blockSize a e) : dev a =
    fs.blockDevice a := by
  cases hp with
  | hit => rfl
  | miss => exact evicted_out fs ha

variable (h : fs.Sound S) (hdc : fs.diskCache = some dc) (hp : Picks fs dc b k e dev) (hb : x.blockNo = b)
  (hS : x.dirty = true → S b) (hclean : S b → x.dirty = false → ∀ i < fs.blockSize, x.block i =
    dev (blockOffset fs.blockSize b + i))
include h hdc hp hb hS hclean

theorem Sound.renew : Ext2.Sound fs.blockSize S dev (dc.set k x) := by
  have hc := h.cache dc hdc
  subst hb
  refine hc.set h.size h.apart hp.entry hS (fun hSb j f hj hf => ?_) (fun a ha => hp.out ha) hclean
  cases hp with
  | hit _ hk hb => exact hc.inj j k f e hj hk (hf ▸ hSb) (hf.trans hb.symm)
  | miss _ _ hno => exact absurd hf (hno f (mem_of_getElem? hj))

theorem Sound.renewed : (fs.renewed dc dev k x).Sound S :=
  ⟨h.size, h.apart, fun dc' hd => by
    obtain rfl := some.inj hd
    exact h.renew hdc hp hb hS hclean⟩

/-- The bytes of the old entry are on the device or in the new entry. -/
theorem Sound.renewed_synced (hkeep : e.blockNo = b → e.dirty = true → x.dirty = true) :
    (fs.renewed dc dev k x).synced =
      if x.dirty then writeFs fs.synced (blockOffset fs.blockSize b) fs.blockSize x.block else fs.synced := by
  have hc := h.cache dc hdc
  have hc' := h.renew hdc hp hb hS hclean
  rw [show (fs.renewed dc dev k x).synced = flush fs.blockSize dev (dc.set k x) from synced_some rfl,
    synced_some hdc, writeFs, ← hb]
  refine hc.flush_set h.size h.apart hp.entry hc' (fun a ha => hp.out ha) fun a h1 h2 => ?_
  cases hp with
  | hit _ _ heb => exact absurd ⟨hkeep heb h1.1, by rw [hb, ← heb]; exact h1.2⟩ h2
  | miss => exact evicted_in fs h1

omit h hp hS hclean in
theorem Good.renewed {T : ℕ → Prop} (hg : fs.Good S) (hT : ∀ b, T b ↔ b ≠ 0 ∧ S b) (hk : dc[k]? = some e)
    (hs : (fs.renewed dc dev k x).Sound T) (hbT : T b) (hage : x.lastUse < uint32Max) :
    (fs.renewed dc dev k x).Good S :=
  ⟨hg.size, hg.apart, fun dc' hd => by
    obtain ⟨hne, hc⟩ := hg.cache dc hdc
    obtain rfl := some.inj hd
    exact ⟨by simpa using hne, hc.of_sound hT hk (hs.cache _ rfl) (hb ▸ hbT) hage⟩⟩

end Renew

theorem Sound.readBlock_renewed (h : fs.Sound S) (hdc : fs.diskCache = some dc) (hb0 : b ≠ 0)
    {dev : Buf} (hp : Picks fs dc b k e dev) (buf : Buf) : ∃ d block,
    fs.readBlock b buf =
      some ((.success, buf.blit 0 block fs.blockSize), fs.renewed dc dev k ⟨b, fs.cacheTime, d, block⟩) ∧
    (fs.renewed dc dev k ⟨b, fs.cacheTime, d, block⟩).Sound S ∧
    (fs.renewed dc dev k ⟨b, fs.cacheTime, d, block⟩).synced = fs.synced ∧
    (S b → ∀ i < fs.blockSize, block i = fs.synced (blockOffset fs.blockSize b + i)) := by
  have hc := h.cache dc hdc
  cases hp with
  | hit hs hk heb =>
    have hem := mem_of_getElem? hk
    have hS : e.dirty = true → S b := fun hd => heb ▸ hc.dirty e hem hd
    have hclean : S b → e.dirty = false → ∀ i < fs.blockSize,
        e.block i = fs.blockDevice (blockOffset fs.blockSize b + i) :=
      fun hb hd i hi => by rw [hc.clean e hem (heb ▸ hb) hd i hi, heb]
    have hbytes : S b → ∀ i < fs.blockSize, e.block i = fs.synced (blockOffset fs.blockSize b + i) := by
      intro hb i hi
      rw [synced_some hdc, ← heb, hc.flush_entry h.size h.apart hk (heb ▸ hb) hi]
    refine ⟨e.dirty, e.block, ?_, h.renewed hdc (.hit hs hk heb) rfl hS hclean, ?_, hbytes⟩
    · rw [readBlock_hit hb0 hdc hs hk, heb.symm]
    · rw [h.renewed_synced (x := ⟨b, fs.cacheTime, e.dirty, e.block⟩) hdc (.hit hs hk heb) rfl hS hclean
        fun _ hd => hd]
      split_ifs with hd
      · -- the entry's bytes are already those of the synced device
        rw [writeFs, blit_congr fun i hi => hbytes (hS hd) i hi]
        exact blit_self _ _ _
      · rfl
  | miss hs hk hno =>
    set block := readFs (fs.evicted e) (blockOffset fs.blockSize b) fs.blockSize e.block with hblock
    have hread : ∀ i < fs.blockSize, block i = fs.evicted e (blockOffset fs.blockSize b + i) :=
      fun i hi => blit_in (Nat.zero_le _) (by omega)
    have hS : false = true → S b := fun hd => by simp at hd
    have hclean : S b → false = false → ∀ i < fs.blockSize,
        block i = fs.evicted e (blockOffset fs.blockSize b + i) := fun _ _ => hread
    have hsync := h.renewed_synced (x := ⟨b, fs.cacheTime, false, block⟩) hdc (.miss hs hk hno) rfl hS hclean
      fun heb => absurd heb (hno e (mem_of_getElem? hk))
    refine ⟨false, block, readBlock_miss hb0 hdc hs hk, h.renewed hdc (.miss hs hk hno) rfl hS hclean, hsync,
      ?_⟩
    intro hb i hi
    have hc' := h.renew (x := ⟨b, fs.cacheTime, false, block⟩) hdc (.miss hs hk hno) rfl hS hclean
    have hself := List.getElem?_set_self (l := dc) (a := (⟨b, fs.cacheTime, false, block⟩ : CacheEntry))
      (List.getElem?_eq_some_iff.mp hk).1
    have hflush := hc'.flush_entry h.size h.apart hself hb hi
    rw [← show _ = fs.synced from hsync, synced_some rfl]
    exact hflush.symm

theorem Sound.writeBlock_renewed (h : fs.Sound S) (hdc : fs.diskCache = some dc) (hb : S b) (hb0 : b ≠ 0)
    {dev : Buf} (hp : Picks fs dc b k e dev) (buf : Buf) : ∃ block,
    fs.writeBlock b buf = some (.success, fs.renewed dc dev k ⟨b, fs.cacheTime, true, block⟩) ∧
    (fs.renewed dc dev k ⟨b, fs.cacheTime, true, block⟩).Sound S ∧
    (fs.renewed dc dev k ⟨b, fs.cacheTime, true, block⟩).synced =
      writeFs fs.synced (blockOffset fs.blockSize b) fs.blockSize buf := by
  have hS : true = true → S b := fun _ => hb
  have hclean : S b → true = false → ∀ i < fs.blockSize,
      e.block.blit 0 buf fs.blockSize i = dev (blockOffset fs.blockSize b + i) := fun _ hd => by simp at hd
  refine ⟨e.block.blit 0 buf fs.blockSize, ?_, h.renewed hdc hp rfl hS hclean, ?_⟩
  · cases hp with
    | hit hs hk heb => rw [writeBlock_hit hb0 hdc hs hk, heb]
    | miss hs hk hno => exact writeBlock_miss hb0 hdc hs hk
  · rw [h.renewed_synced hdc hp rfl hS hclean fun _ _ => rfl, if_pos rfl]
    exact blit_congr fun i hi => blit_in (Nat.zero_le _) (by omega)

theorem readBlock_overrun (hb0 : b ≠ 0) (hdc : fs.diskCache = some dc)
    (hs : cacheScan b dc 0 none uint32Max = .inr none) : fs.readBlock b buf = none := by
  simp [readBlock, hb0, hdc, hs]

theorem writeBlock_overrun (hb0 : b ≠ 0) (hdc : fs.diskCache = some dc)
    (hs : cacheScan b dc 0 none uint32Max = .inr none) : fs.writeBlock b buf = none := by
  simp [writeBlock, hb0, hdc, hs]

variable {fs' : Fs}

/-- The block layer leaves the other fields alone. -/
theorem readBlock_mem {r : Err × Buf} (hr : fs.readBlock b buf = some (r, fs')) : fs'.toMem = fs.toMem := by
  by_cases hb0 : b = 0
  · simp only [Fs.readBlock, if_pos hb0] at hr
    rw [← (Prod.mk.inj (some.inj hr)).2]
  rcases eq_none_or_eq_some fs.diskCache with hdc | ⟨dc, hdc⟩
  · simp only [Fs.readBlock, if_neg hb0, hdc] at hr
    rw [← (Prod.mk.inj (some.inj hr)).2]
  rcases picks_or fs dc b with ⟨k, e, dev, hp⟩ | ⟨hs, -⟩
  · cases hp with
    | hit hs hk _ =>
      rw [readBlock_hit hb0 hdc hs hk] at hr
      rw [← (Prod.mk.inj (some.inj hr)).2]
      rfl
    | miss hs hk _ =>
      rw [readBlock_miss hb0 hdc hs hk] at hr
      rw [← (Prod.mk.inj (some.inj hr)).2]
      rfl
  · rw [readBlock_overrun hb0 hdc hs] at hr
    simp at hr

theorem Sound.readBlock (h : fs.Sound S) {r : Err × Buf} (hr : fs.readBlock b buf = some (r, fs')) :
    fs'.Sound S ∧ fs'.synced = fs.synced ∧ Frame fs fs' ∧
      (S b → b ≠ 0 → r = (.success, readFs fs.synced (blockOffset fs.blockSize b) fs.blockSize buf)) := by
  by_cases hb0 : b = 0
  · simp only [Fs.readBlock, hb0, if_pos, some.injEq, Prod.mk.injEq] at hr
    obtain ⟨-, rfl⟩ := hr
    exact ⟨h, rfl, ⟨rfl, rfl, rfl⟩, fun _ h0 => absurd hb0 h0⟩
  cases hdc : fs.diskCache with
  | none =>
    simp only [Fs.readBlock, if_neg hb0, hdc, some.injEq, Prod.mk.injEq] at hr
    obtain ⟨rfl, rfl⟩ := hr
    exact ⟨h, rfl, ⟨rfl, rfl, rfl⟩, fun _ _ => by rw [synced_none hdc]⟩
  | some dc =>
    rcases picks_or fs dc b with ⟨k, e, dev, hp⟩ | ⟨hs, -⟩
    · obtain ⟨d, block, hrun, hsound, hsync, hbytes⟩ := h.readBlock_renewed hdc hb0 hp buf
      rw [hrun] at hr
      obtain ⟨rfl, rfl⟩ := Prod.mk.inj (some.inj hr)
      exact ⟨hsound, hsync, renewed_frame hdc _ _ _, fun hb _ => by rw [readFs, blit_congr (hbytes hb)]; rfl⟩
    · rw [readBlock_overrun hb0 hdc hs] at hr
      simp at hr

theorem Sound.writeBlock (h : fs.Sound S) (hb : S b) (hb0 : b ≠ 0) {r : Err}
    (hr : fs.writeBlock b buf = some (r, fs')) :
    fs'.Sound S ∧ fs'.synced = writeFs fs.synced (blockOffset fs.blockSize b) fs.blockSize buf ∧
      Frame fs fs' := by
  cases hdc : fs.diskCache with
  | none =>
    simp only [Fs.writeBlock, if_neg hb0, hdc, some.injEq, Prod.mk.injEq] at hr
    obtain ⟨-, rfl⟩ := hr
    refine ⟨⟨h.size, h.apart, fun dc hd => ?_⟩, ?_, ⟨rfl, rfl, by simp [hdc]⟩⟩
    · simp at hd
    · rw [synced_none hdc]
      exact synced_none rfl
  | some dc =>
    rcases picks_or fs dc b with ⟨k, e, dev, hp⟩ | ⟨hs, -⟩
    · obtain ⟨block, hrun, hsound, hsync⟩ := h.writeBlock_renewed hdc hb hb0 hp buf
      rw [hrun] at hr
      obtain ⟨-, rfl⟩ := Prod.mk.inj (some.inj hr)
      exact ⟨hsound, hsync, renewed_frame hdc _ _ _⟩
    · rw [writeBlock_overrun hb0 hdc hs] at hr
      simp at hr

/-- On a coherent cache the search always finds an entry. -/
theorem Good.picks (hg : fs.Good S) (hdc : fs.diskCache = some dc) (b : ℕ) : ∃ k e dev,
    Picks fs dc b k e dev := by
  obtain ⟨hne, hc⟩ := hg.cache dc hdc
  refine (picks_or fs dc b).resolve_right fun ⟨_, hage⟩ => ?_
  obtain ⟨e, he⟩ := exists_mem_of_ne_nil dc hne
  exact absurd (hc.age e he) (Nat.not_lt.mpr (hage e he))

theorem readBlock_spec (buf : Buf) (hg : fs.Good S) (hb : S b) (hb0 : b ≠ 0)
    (ht : fs.diskCache.isSome → fs.cacheTime < uint32Max) :
    ∃ fs', fs.readBlock b buf =
        some ((.success, readFs fs.synced (blockOffset fs.blockSize b) fs.blockSize buf), fs') ∧
      fs'.Good S ∧ fs'.synced = fs.synced ∧ Frame fs fs' := by
  cases hdc : fs.diskCache with
  | none =>
    exact ⟨fs, by simp [Fs.readBlock, hb0, hdc, synced_none hdc], hg, rfl, ⟨rfl, rfl, rfl⟩⟩
  | some dc =>
    have hT : ∀ c, c ≠ 0 ∧ S c ↔ c ≠ 0 ∧ S c := fun _ => Iff.rfl
    obtain ⟨k, e, dev, hp⟩ := hg.picks hdc b
    obtain ⟨d, block, hrun, hsound, hsync, hbytes⟩ := (hg.sound hT).readBlock_renewed hdc hb0 hp buf
    refine ⟨_, ?_, hg.renewed hdc rfl hT hp.entry hsound ⟨hb0, hb⟩ (ht (by simp [hdc])), hsync,
      renewed_frame hdc _ _ _⟩
    rw [hrun, readFs, blit_congr (hbytes ⟨hb0, hb⟩)]
    rfl

theorem writeBlock_spec (buf : Buf) (hg : fs.Good S) (hb : S b) (hb0 : b ≠ 0)
    (ht : fs.diskCache.isSome → fs.cacheTime < uint32Max) :
    ∃ fs', fs.writeBlock b buf = some (.success, fs') ∧ fs'.Good S ∧
      fs'.synced = writeFs fs.synced (blockOffset fs.blockSize b) fs.blockSize buf ∧ Frame fs fs' := by
  cases hdc : fs.diskCache with
  | none =>
    have hw : fs.writeBlock b buf = some (.success,
        { fs with blockDevice := writeFs fs.blockDevice (blockOffset fs.blockSize b) fs.blockSize buf }) := by
      simp [Fs.writeBlock, hb0, hdc]
    refine ⟨_, hw, ⟨hg.size, hg.apart, fun dc h => ?_⟩, ?_, ⟨rfl, rfl, rfl⟩⟩
    · simp [hdc] at h
    · rw [synced_none hdc]
      exact synced_none hdc
  | some dc =>
    have hT : ∀ c, c ≠ 0 ∧ S c ↔ c ≠ 0 ∧ S c := fun _ => Iff.rfl
    obtain ⟨k, e, dev, hp⟩ := hg.picks hdc b
    obtain ⟨block, hrun, hsound, hsync⟩ := (hg.sound hT).writeBlock_renewed hdc ⟨hb0, hb⟩ hb0 hp buf
    exact ⟨_, hrun, hg.renewed hdc rfl hT hp.entry hsound ⟨hb0, hb⟩ (ht (by simp [hdc])), hsync,
      renewed_frame hdc _ _ _⟩

theorem syncEntries_fst (bs : ℕ) (dc : List CacheEntry) (dev : Buf) :
    (syncEntries bs dc dev).1 = dc.map fun e => { e with dirty := false } := by
  induction dc generalizing dev with
  | nil => rfl
  | cons e es ih =>
    rw [syncEntries]
    split_ifs with hd
    · simp [ih]
    · obtain ⟨b, t, d, blk⟩ := e
      simp_all

theorem ext2Sync_some (hdc : fs.diskCache = some dc) : fs.ext2Sync = { fs with
    diskCache := some (dc.map fun e => { e with dirty := false })
    blockDevice := flush fs.blockSize fs.blockDevice dc } := by
  simp [ext2Sync, hdc, syncEntries_fst, flush]

theorem synced_ext2Sync (fs : Fs) : fs.ext2Sync.synced = fs.synced := by
  rcases eq_none_or_eq_some fs.diskCache with hdc | ⟨dc, hdc⟩
  · have : fs.ext2Sync = fs := by simp [ext2Sync, hdc]
    rw [this]
  · rw [ext2Sync_some hdc, synced_some hdc, synced_some rfl]
    funext a
    exact flush_uncovered fun e he hcov => by
      obtain ⟨e, -, rfl⟩ := mem_map.mp he
      simp [Covers] at hcov

theorem ext2Sync_spec (hg : fs.Good S) :
    fs.ext2Sync.Good S ∧ fs.ext2Sync.synced = fs.synced ∧ Frame fs fs.ext2Sync := by
  refine ⟨?_, fs.synced_ext2Sync, ?_⟩ <;> rcases eq_none_or_eq_some fs.diskCache with hdc | ⟨dc, hdc⟩
  · have : fs.ext2Sync = fs := by simp [ext2Sync, hdc]
    rwa [this]
  · obtain ⟨hne, hc⟩ := hg.cache dc hdc
    have hc' : Coherent fs.blockSize S (flush fs.blockSize fs.blockDevice dc)
        (dc.map fun e => { e with dirty := false }) := by
      refine ⟨?_, ?_, fun e he _ => ?_, ?_, ?_⟩
      · intro i j e f hi hj h0 hef
        simp only [List.getElem?_map, map_eq_some_iff] at hi hj
        obtain ⟨e, hi, rfl⟩ := hi
        obtain ⟨f, hj, rfl⟩ := hj
        exact hc.inj i j e f hi hj h0 hef
      · intro e he h0
        obtain ⟨e, hem, rfl⟩ := mem_map.mp he
        exact hc.used e hem h0
      · obtain ⟨e, -, rfl⟩ := mem_map.mp he
        rfl
      · intro e he h0 _ i hi
        obtain ⟨e, hem, rfl⟩ := mem_map.mp he
        obtain ⟨k, hk⟩ := List.getElem?_of_mem hem
        exact (hc.sound (T := fun b => b ≠ 0 ∧ S b) (fun _ => Iff.rfl)).flush_entry hg.size
          (fun a b ha hb => hg.apart a b ha.2 hb.2) hk ⟨h0, hc.used e hem h0⟩ hi |>.symm
      · intro e he
        obtain ⟨e, hem, rfl⟩ := mem_map.mp he
        exact hc.age e hem
    rw [ext2Sync_some hdc]
    refine ⟨hg.size, hg.apart, fun dc' h => ?_⟩
    obtain rfl := some.inj h
    exact ⟨by simpa using hne, hc'⟩
  · have : fs.ext2Sync = fs := by simp [ext2Sync, hdc]
    rw [this]
    exact ⟨rfl, rfl, rfl⟩
  · rw [ext2Sync_some hdc]
    exact ⟨rfl, rfl, by simp [hdc]⟩

end Calls

/-- The uncached file system `u` whose device is what `fs` shows. -/
structure ShowsBare (fs u : Fs) : Prop where
  nocache : u.diskCache = none
  device : u.blockDevice = fs.synced
  mem : u.toMem = fs.toMem

end Fs

/-- The request names only block 0 and blocks of `S`. -/
def Req.Within (S : ℕ → Prop) : Req → Prop
  | .read b _ => b = 0 ∨ S b
  | .write b _ => b = 0 ∨ S b
  | .sync => True

namespace Fs

theorem serve_spec {S : ℕ → Prop} {fs u : Fs} (hg : fs.Good S) (hu : ShowsBare fs u)
    (ht : fs.cacheTime < uint32Max) (r : Req) (hr : r.Within S) :
    ∃ a fs' u', fs.serve r = some (a, fs') ∧ u.serve r = some (a, u') ∧ fs'.Good S ∧ ShowsBare fs' u' := by
  have hbs : u.blockSize = fs.blockSize := congrArg Mem.blockSize hu.mem
  cases r with
  | read b buf =>
    by_cases hb0 : b = 0
    · exact ⟨.read .badBlock buf, fs,
        u, by simp [serve, readBlock, hb0], by simp [serve, readBlock, hb0], hg, hu⟩
    obtain ⟨fs', h1, h2, h3, h4⟩ := readBlock_spec buf hg (hr.resolve_left hb0) hb0 fun _ => ht
    refine ⟨.read .success (readFs fs.synced (blockOffset fs.blockSize b) fs.blockSize buf), fs', u,
      by simp [serve, h1], ?_, h2, hu.nocache, hu.device.trans h3.symm, hu.mem.trans h4.mem.symm⟩
    simp [serve, readBlock, hb0, hu.nocache, hu.device, hbs]
  | write b buf =>
    by_cases hb0 : b = 0
    · exact ⟨.write .badBlock, fs,
        u, by simp [serve, writeBlock, hb0], by simp [serve, writeBlock, hb0], hg, hu⟩
    obtain ⟨fs', h1, h2, h3, h4⟩ := writeBlock_spec buf hg (hr.resolve_left hb0) hb0 fun _ => ht
    have hw : u.writeBlock b buf = some (.success,
        { u with blockDevice := writeFs fs.synced (blockOffset fs.blockSize b) fs.blockSize buf }) := by
      simp [writeBlock, hb0, hu.nocache, hu.device, hbs]
    exact ⟨.write .success, fs',
      { u with blockDevice := writeFs fs.synced (blockOffset fs.blockSize b) fs.blockSize buf },
      by simp [serve, h1], by rw [serve, hw]; rfl, h2, hu.nocache, h3.symm, hu.mem.trans h4.mem.symm⟩
  | sync =>
    obtain ⟨h1, h2, h3⟩ := ext2Sync_spec hg
    have hs : u.ext2Sync = u := by simp [ext2Sync, hu.nocache]
    exact ⟨.sync, fs.ext2Sync, u, rfl, by rw [serve, hs], h1, hu.nocache, hu.device.trans h2.symm,
      hu.mem.trans h3.mem.symm⟩

/-- The clock stays below its last value in every state the calls lead to. -/
def ClockBelow (fs : Fs) (rs : List Req) : Prop :=
  ∀ pre as st, pre <+: rs → fs.serveAll pre = some (as, st) → st.cacheTime < uint32Max

variable {rs : List Req}

theorem ClockBelow.head {fs : Fs} (h : fs.ClockBelow rs) : fs.cacheTime < uint32Max :=
  h [] [] fs nil_prefix rfl

theorem ClockBelow.tail {fs fs' : Fs} {r : Req} {a : Reply} (h : fs.ClockBelow (r :: rs))
    (hr : fs.serve r = some (a, fs')) : fs'.ClockBelow rs := by
  intro pre as st hp hs
  exact h (r :: pre) (a :: as) st (cons_prefix_cons.mpr ⟨rfl, hp⟩) (by simp [serveAll, hr, hs])

theorem makeRoom_cacheTime (fs : Fs) (k : ℕ) (e : CacheEntry) :
    (fs.makeRoom k e).cacheTime = fs.cacheTime := by
  unfold makeRoom
  split_ifs <;> rfl

theorem serve_cacheTime {fs fs' : Fs} {r : Req} {a : Reply} (h : fs.serve r = some (a, fs')) :
    fs'.cacheTime ≤ fs.cacheTime + 1 := by
  have hmod := Nat.mod_le (fs.cacheTime + 1) (2 ^ 32)
  cases r with
  | read b buf =>
    simp only [serve, readBlock, map_eq_some_iff] at h
    obtain ⟨x, hx, hxa⟩ := h
    obtain rfl := (Prod.mk.inj hxa).2
    split_ifs at hx
    · simp [← some.inj hx]
    · split at hx
      · simp [← some.inj hx]
      · split at hx
        · obtain ⟨e, -, hx⟩ := bind_eq_some_iff.mp hx
          simpa [← some.inj hx, getCacheTime, setEntry] using hmod
        · obtain ⟨k, -, hx⟩ := bind_eq_some_iff.mp hx
          obtain ⟨e, -, hx⟩ := bind_eq_some_iff.mp hx
          simpa [← some.inj hx, getCacheTime, setEntry, makeRoom_cacheTime] using hmod
  | write b buf =>
    simp only [serve, writeBlock, map_eq_some_iff] at h
    obtain ⟨x, hx, hxa⟩ := h
    obtain rfl := (Prod.mk.inj hxa).2
    split_ifs at hx
    · simp [← some.inj hx]
    · split at hx
      · simp [← some.inj hx]
      · split at hx
        · obtain ⟨e, -, hx⟩ := bind_eq_some_iff.mp hx
          simpa [← some.inj hx, getCacheTime, setEntry] using hmod
        · obtain ⟨k, -, hx⟩ := bind_eq_some_iff.mp hx
          obtain ⟨e, -, hx⟩ := bind_eq_some_iff.mp hx
          simpa [← some.inj hx, getCacheTime, setEntry, makeRoom_cacheTime] using hmod
  | sync =>
    obtain rfl := (Prod.mk.inj (some.inj h)).2
    unfold ext2Sync
    split <;> simp

theorem serveAll_cacheTime {fs fs' : Fs} {as : List Reply}
    (h : fs.serveAll rs = some (as, fs')) : fs'.cacheTime ≤ fs.cacheTime + rs.length := by
  induction rs generalizing fs as with
  | nil =>
    obtain ⟨-, rfl⟩ := Prod.mk.inj (some.inj h)
    simp
  | cons r rs ih =>
    simp only [serveAll, bind_eq_bind, bind_eq_some_iff] at h
    obtain ⟨⟨a, fs1⟩, h1, ⟨as1, fs2⟩, h2, h3⟩ := h
    obtain ⟨-, rfl⟩ := Prod.mk.inj (some.inj h3)
    have ht := serve_cacheTime h1
    have hts := ih h2
    simp only [length_cons] at ht hts ⊢
    omega

/-- The clock cannot run out within fewer calls than it has ticks left. -/
theorem clockBelow_of_length {fs : Fs} (h : fs.cacheTime + rs.length < uint32Max) :
    fs.ClockBelow rs := by
  intro pre as st hp hs
  have := serveAll_cacheTime hs
  have := hp.length_le
  omega

/-- Any number of calls, cached and uncached, by induction on the calls. -/
theorem serveAll_spec {S : ℕ → Prop} (rs : List Req) {fs u : Fs} (hg : fs.Good S) (hu : ShowsBare fs u)
    (ht : fs.ClockBelow rs) (hr : ∀ r ∈ rs, r.Within S) :
    ∃ as fs' u', fs.serveAll rs = some (as, fs') ∧ u.serveAll rs = some (as, u') ∧
      fs'.Good S ∧ ShowsBare fs' u' := by
  induction rs generalizing fs u with
  | nil => exact ⟨[], fs, u, rfl, rfl, hg, hu⟩
  | cons r rs ih =>
    obtain ⟨a, fs1, u1, h1, h2, hg1, hu1⟩ := serve_spec hg hu ht.head r (hr r (by simp))
    obtain ⟨as, fs2, u2, h3, h4, hg2, hu2⟩ := ih hg1 hu1 (ht.tail h1) fun r' h' => hr r' (by simp [h'])
    exact ⟨a :: as, fs2, u2, by simp [serveAll, h1, h3], by simp [serveAll, h2, h4], hg2, hu2⟩

theorem good_emptyCache {S : ℕ → Prop} {fs : Fs} {n : ℕ} (hn : 1 ≤ n) (hbs : fs.blockSize ∣ 2 ^ 32)
    (hS : NoAlias fs.blockSize S) (hdc : fs.diskCache = some (emptyCache n)) : fs.Good S := by
  refine ⟨hbs, hS, fun dc h => ?_⟩
  obtain rfl : emptyCache n = dc := some.inj (hdc.symm.trans h)
  have hall : ∀ e ∈ emptyCache n, e.blockNo = 0 ∧ e.dirty = false ∧ e.lastUse = 0 := by
    intro e he
    rw [eq_of_mem_replicate he]
    exact ⟨rfl, rfl, rfl⟩
  refine ⟨by simp [emptyCache]; omega, ?_, ?_, fun e he _ => (hall e he).2.1, ?_, ?_⟩
  · intro i j e f hi _ h0 _
    exact absurd (hall e (mem_of_getElem? hi)).1 h0
  · exact fun e he h0 => absurd (hall e he).1 h0
  · exact fun e he h0 => absurd (hall e he).1 h0
  · intro e he
    rw [(hall e he).2.2]
    decide

theorem shows_emptyCache {fs : Fs} {n : ℕ} (hdc : fs.diskCache = some (emptyCache n)) :
    ShowsBare fs fs.uncached := by
  refine ⟨rfl, ?_, rfl⟩
  rw [synced_some hdc]
  funext a
  refine (flush_uncovered fun e he hcov => ?_).symm
  rw [eq_of_mem_replicate he] at hcov
  simp [Covers] at hcov

/-- The cache cannot be told from the bare device: every call of the sequence returns the same
code and the same bytes with and without it, a sync leaves the device the uncached calls
leave, and block 0 is refused without effect in the state reached. -/
structure Transparent (fs : Fs) (rs : List Req) : Prop where
  replies : ∃ as st u, fs.serveAll rs = some (as, st) ∧ fs.uncached.serveAll rs = some (as, u) ∧
    st.ext2Sync.blockDevice = u.blockDevice
  zero : ∀ as st buf, fs.serveAll rs = some (as, st) →
    st.readBlock 0 buf = some ((.badBlock, buf), st) ∧ st.writeBlock 0 buf = some (.badBlock, st)

/-- The block numbers that a sequence of calls names. -/
def Requested (rs : List Req) (b : ℕ) : Prop :=
  b ≠ 0 ∧ ∃ buf, Req.read b buf ∈ rs ∨ Req.write b buf ∈ rs

theorem cache_transparent (fs : Fs) (n k : ℕ) (rs : List Req) (hn : 1 ≤ n) (hk : k ≤ 21)
    (hbs : fs.blockSize = 1024 <<< k) (hdc : fs.diskCache = some (emptyCache n))
    (ht : fs.ClockBelow rs) (ha : NoAlias fs.blockSize (Requested rs)) : fs.Transparent rs := by
  have hdvd : fs.blockSize ∣ 2 ^ 32 := by
    rw [hbs, Nat.shiftLeft_eq, show 1024 = 2 ^ 10 from rfl, ← pow_add]
    exact pow_dvd_pow 2 (by omega)
  have hwithin : ∀ r ∈ rs, r.Within (Requested rs) := by
    intro r hr
    cases r with
    | read b buf => exact or_iff_not_imp_left.mpr fun h0 => ⟨h0, buf, .inl hr⟩
    | write b buf => exact or_iff_not_imp_left.mpr fun h0 => ⟨h0, buf, .inr hr⟩
    | sync => trivial
  obtain ⟨as, st, u, h1, h2, -, hu⟩ :=
    serveAll_spec rs (good_emptyCache hn hdvd ha hdc) (shows_emptyCache hdc) ht hwithin
  exact ⟨⟨as, st, u, h1, h2, hu.device.symm⟩, fun _ _ _ _ => ⟨rfl, rfl⟩⟩

/-- A freshly mounted file system of 1 KiB blocks over a zeroed device, with `n` cache entries. -/
def blankFs (n : ℕ) : Fs where
  superblock := fun _ => 0
  blockGroups := fun _ => 0
  blockSize := 1024
  pointersPerBlock := 256
  inodesPerGroup := 8
  blockGroupCount := 1
  bgdBlockSpan := 1
  bgdOffset := 2
  inodeSize := 128
  blockDevice := fun _ => 0
  diskCache := some (emptyCache n)
  cacheTime := 0
  heap := fun _ _ => 0

/-- One block written and read back, another read in between, on a cache of one entry. -/
theorem cache_transparent_evict :
    (blankFs 1).Transparent [.write 1 fun _ => 7, .read 2 fun _ => 1, .read 1 fun _ => 0, .sync] := by
  refine cache_transparent (blankFs 1) 1 0 _ le_rfl (by norm_num) rfl rfl
    (clockBelow_of_length (by decide)) ?_
  have h12 : ∀ b, Requested [.write 1 fun _ => 7, .read 2 fun _ => 1, .read 1 fun _ => 0, .sync] b →
      b = 1 ∨ b = 2 := by
    rintro b ⟨-, buf, h | h⟩ <;> simp at h <;> omega
  intro a b ha hb hab
  rcases h12 a ha with rfl | rfl <;> rcases h12 b hb with rfl | rfl
  all_goals first | exact absurd rfl hab | decide

def lastByte (r : Option (List Reply × Fs)) : Option UInt8 :=
  match r with
  | some (as, _) => match as.getLast? with
    | some (.read _ buf) => some (buf 0)
    | _ => none
  | none => none

/-- Block `2^22 + 1` of a file system with 1 KiB blocks lies 4 GiB after block 1, so that the
32-bit offset of both is 1024. -/
def aliasReqs : List Req := [.read 2 fun _ => 0, .write 1 fun _ => 7, .read 4194305 fun _ => 0]

/-- With two cache entries the last read does not see what was written. -/
theorem cache_alias_stale :
    (blankFs 2).blockSize = 1024 <<< 0 ∧ (blankFs 2).diskCache = some (emptyCache 2) ∧
    (blankFs 2).ClockBelow aliasReqs ∧
    ¬ (blankFs 2).Transparent aliasReqs := by
  refine ⟨rfl, rfl, clockBelow_of_length (by decide), fun h => ?_⟩
  obtain ⟨as, st, u, h1, h2, -⟩ := h.replies
  have e1 : lastByte ((blankFs 2).serveAll aliasReqs) = some 0 := by
    decide
  have e2 : lastByte ((blankFs 2).uncached.serveAll aliasReqs) =
      some 7 := by
    decide
  rw [h1] at e1
  rw [h2] at e2
  simpa using e1.symm.trans e2

end Fs
end ChiffOS.Ext2
