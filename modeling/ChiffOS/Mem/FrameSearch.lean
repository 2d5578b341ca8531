import ChiffOS.Mem.Directory

/-! The searches for frames in `mem.c`. `first_frame` looks at complete words of the bitmap only.
`first_n_frames` looks for frames in a row and does not stop at the end of the memory; `kmalloc_real` gives
the frames of a block back before it calls it. -/

namespace ChiffOS.Mem

open List

namespace Frames

variable {m : Frames} {n i : ℕ}

/-! ### One frame -/

def FreeBelow (m : Frames) : Set ℕ := {f | f < m.nframes ∧ ¬ m.Used f}

structure SearchComplete (m : Frames) : Prop where
  least : m.FreeBelow.Nonempty → IsLeast m.FreeBelow m.firstFrame
  fails : m.firstFrame = noFrame → ∀ f < m.nframes, m.Used f

theorem firstFrame_least (h : ∃ f, m.Free f) : IsLeast m.FreeBelow m.firstFrame := by
  have hfree := firstFrame_free h
  refine ⟨⟨hfree.lt, hfree.2⟩, fun f hf => ?_⟩
  by_contra hlt
  have hlt : f < m.firstFrame := Nat.not_le.mp hlt
  have hmem := mem_freeFrames.mpr (show m.Free f from ⟨hlt.trans hfree.1, hf.2⟩)
  rw [firstFrame_eq] at hlt
  have hsorted := m.freeFrames_sorted
  cases hl : m.freeFrames with
  | nil => rw [hl] at hmem; exact not_mem_nil hmem
  | cons g gs =>
    rw [hl] at hmem hsorted hlt
    rcases mem_cons.mp hmem with rfl | hmem
    · exact lt_irrefl _ hlt
    · exact lt_asymm hlt ((pairwise_cons.mp hsorted).1 f hmem)

/-- The search is complete exactly if there is a free frame in a complete word of the bitmap as soon as
there is one at all. -/
theorem search_complete_iff (m : Frames) (hm : m.nframes < 2 ^ 32) :
    m.SearchComplete ↔ (m.FreeBelow.Nonempty → ∃ f, m.Free f) := by
  constructor
  · intro h hne
    by_contra hno
    have hnone := firstFrame_none (not_exists.mp hno)
    obtain ⟨f, hf⟩ := hne
    exact hf.2 (h.fails hnone f hf.1)
  · intro h
    refine ⟨fun hne => firstFrame_least (h hne), fun hnone f hf => ?_⟩
    by_contra hu
    have hlt := (firstFrame_free (h ⟨f, hf, hu⟩)).lt
    rw [hnone, noFrame] at hlt
    omega

theorem search_complete_32 : (⟨32, fun _ => 0xFFFFFFFE#32⟩ : Frames).SearchComplete :=
  (search_complete_iff _ (by norm_num)).mpr fun _ => ⟨0, by decide⟩

theorem search_misses_last : 32 ∈ (⟨33, fun i => if i = 0 then 0xFFFFFFFF#32 else 0⟩ : Frames).FreeBelow ∧
    (⟨33, fun i => if i = 0 then 0xFFFFFFFF#32 else 0⟩ : Frames).firstFrame = noFrame := by
  refine ⟨⟨by decide, by decide⟩, by decide⟩

/-! ### Frames in a row -/

def testFrame (m : Frames) (frameAddr : ℕ) : BitVec 32 :=
  let frame := frameAddr / 0x1000
  let index := indexFromBit frame
  let offset := offsetFromBit frame
  m.frames index &&& 1#32 <<< offset

/-- The variable `bad` after the inner loop of `first_n_frames`. -/
def badAt (m : Frames) (n i : ℕ) : ℕ :=
  (List.range n).foldl (fun bad j => if m.testFrame ((i + 0x1000 * j) % 2 ^ 32) ≠ 0 then j + 1 else bad) 0

/-- The addresses that the outer loop comes to are the multiples of the page size below `nframes * 0x1000`,
in 32 bits. -/
def firstNFrames (m : Frames) (n : ℕ) : ℕ :=
  ((((List.range (m.nframes * 0x1000 % 2 ^ 32 / 0x1000)).map (· * 0x1000)).find? fun i => m.badAt n i = 0).map
    (· / 0x1000)).getD
    noFrame

def Run (m : Frames) (n i : ℕ) : Prop := ∀ j < n, i + j < m.nframes ∧ ¬ m.Used (i + j)

instance (m : Frames) (n i : ℕ) : Decidable (m.Run n i) := inferInstanceAs (Decidable (∀ j < n, _))

/-- What the loops take for such frames: the bits are clear, of whatever frames, and the numbers wrap with
the addresses. -/
def Seen (m : Frames) (n i : ℕ) : Prop := i < m.nframes % 2 ^ 20 ∧ ∀ j < n, ¬ m.Used ((i + j) % 2 ^ 20)

instance (m : Frames) (n i : ℕ) : Decidable (m.Seen n i) := inferInstanceAs (Decidable (_ ∧ ∀ j < n, _))

/-- The search gives the first of the runs, and the error just if there is none. -/
structure FindsRun (m : Frames) (n : ℕ) : Prop where
  least : (∃ i, m.Run n i) → IsLeast {i | m.Run n i} (m.firstNFrames n)
  fails : m.firstNFrames n = noFrame ↔ ¬ ∃ i, m.Run n i

theorem testFrame_ne_zero (m : Frames) (f : ℕ) : m.testFrame (f * 0x1000) ≠ 0 ↔ m.Used f := by
  have hlt : offsetFromBit f < 32 := Nat.mod_lt _ (by norm_num)
  rw [testFrame, Nat.mul_div_cancel _ (by norm_num), Used]
  constructor
  · intro h
    by_contra hbit
    apply h
    ext j hj
    simp only [← BitVec.getLsbD_eq_getElem, BitVec.getLsbD_and, BitVec.getLsbD_shiftLeft, BitVec.getLsbD_one]
    grind
  · intro hbit h
    have hz := congrArg (BitVec.getLsbD · (offsetFromBit f)) h
    rw [BitVec.getLsbD_eq_getElem hlt] at hbit
    simp [hbit, hlt] at hz

theorem badAt_eq_zero (m : Frames) (n i : ℕ) : m.badAt n (i * 0x1000) = 0 ↔ ∀ j < n, ¬ m.Used
    ((i + j) % 2 ^ 20) := by
  have haddr : ∀ j, (i * 0x1000 + 0x1000 * j) % 2 ^ 32 = (i + j) % 2 ^ 20 * 0x1000 := by
    intro j
    omega
  unfold badAt
  simp only [haddr, testFrame_ne_zero]
  -- only the last frame that is used is noted
  induction n with
  | zero => simp
  | succ n ih =>
    rw [range_succ, foldl_append, foldl_cons, foldl_nil]
    by_cases hu : m.Used ((i + n) % 2 ^ 20)
    · rw [if_pos hu]
      exact iff_of_false (Nat.succ_ne_zero n) fun h => h n (Nat.lt_succ_self n) hu
    · rw [if_neg hu, Nat.forall_lt_succ_right]
      exact ih.trans (and_iff_left hu).symm

theorem firstNFrames_eq (m : Frames) (n : ℕ) :
    m.firstNFrames n = ((List.range (m.nframes % 2 ^ 20)).find? fun i => m.Seen n i).getD noFrame := by
  have hbound : m.nframes * 0x1000 % 2 ^ 32 / 0x1000 = m.nframes % 2 ^ 20 := by omega
  rw [firstNFrames, hbound, List.find?_map, Option.map_map]
  have hid : ((· / 0x1000) ∘ fun i : ℕ => i * 0x1000) = id := by
    funext i
    exact Nat.mul_div_cancel i (by norm_num)
  rw [hid, Option.map_id, id]
  congr 1
  refine List.find?_congr fun i hi => ?_
  simp only [Function.comp_apply, badAt_eq_zero, Seen, mem_range.mp hi, true_and]

theorem firstNFrames_least (h : ∃ i, m.Seen n i) : IsLeast {i | m.Seen n i} (m.firstNFrames n) := by
  obtain ⟨i, hi⟩ := h
  rw [firstNFrames_eq]
  cases hf : (List.range (m.nframes % 2 ^ 20)).find? fun i => m.Seen n i with
  | none => exact absurd (decide_eq_true hi) (List.find?_eq_none.mp hf i (mem_range.mpr hi.1))
  | some k =>
    obtain ⟨hk, -, hbefore⟩ := List.find?_range_eq_some.mp hf
    refine ⟨of_decide_eq_true hk, fun g hg => ?_⟩
    by_contra hlt
    have := hbefore g (Nat.not_le.mp hlt)
    simp only [Bool.not_eq_true', decide_eq_false_iff_not] at this
    exact this hg

theorem firstNFrames_none (h : ¬ ∃ i, m.Seen n i) : m.firstNFrames n = noFrame := by
  rw [firstNFrames_eq, List.find?_eq_none.mpr]
  · rfl
  · exact fun i _ hi => h ⟨i, of_decide_eq_true hi⟩

theorem findsRun_iff_seen (m : Frames) (n : ℕ) : m.FindsRun n ↔
    (∀ i, m.Seen n i → ∃ g ≤ i, m.Run n g) ∧ ∀ g, m.Run n g → ∃ i ≤ g, m.Seen n i := by
  have hin : ∀ i, m.Seen n i → i < noFrame := by
    intro i hi
    have := hi.1
    unfold noFrame
    omega
  constructor
  · intro h
    refine ⟨fun i hi => ?_, fun g hg => ?_⟩
    · have hleast := firstNFrames_least ⟨i, hi⟩
      have hrun : ∃ g, m.Run n g := by
        by_contra hno
        exact (hin _ hleast.1).ne (h.fails.mpr hno)
      exact ⟨_, hleast.2 hi, (h.least hrun).1⟩
    · by_contra hno
      push Not at hno
      by_cases hseen : ∃ i, m.Seen n i
      · have hleast := firstNFrames_least hseen
        exact hno _ ((h.least ⟨g, hg⟩).2 hg) hleast.1
      · exact h.fails.mp (firstNFrames_none hseen) ⟨g, hg⟩
  · rintro ⟨hsound, hcomplete⟩
    refine ⟨?_, fun hnone hrun => ?_, fun hno => firstNFrames_none ?_⟩
    · rintro ⟨g, hg⟩
      obtain ⟨i, -, hi⟩ := hcomplete g hg
      have hleast := firstNFrames_least ⟨i, hi⟩
      obtain ⟨g', hle, hg'⟩ := hsound _ hleast.1
      obtain ⟨i', hle', hi'⟩ := hcomplete g' hg'
      have heq : g' = m.firstNFrames n := le_antisymm hle ((hleast.2 hi').trans hle')
      refine ⟨heq ▸ hg', fun k hk => ?_⟩
      obtain ⟨l, hl, hl'⟩ := hcomplete k hk
      exact (hleast.2 hl').trans hl
    · obtain ⟨g, hg⟩ := hrun
      obtain ⟨i, -, hi⟩ := hcomplete g hg
      exact (hin _ (firstNFrames_least ⟨i, hi⟩).1).ne hnone
    · rintro ⟨i, hi⟩
      obtain ⟨g, -, hg⟩ := hsound i hi
      exact hno ⟨g, hg⟩

def distinct (m : Frames) : ℕ := min m.nframes (2 ^ 20)

/-- A row of bits that begins where the loops look and goes on behind the last of these frames has a bit
set. -/
def EndsUsed (m : Frames) (n i : ℕ) : Prop := m.distinct < i + n → ∃ j < n, m.Used ((i + j) % 2 ^ 20)

theorem seen_iff_run {i : ℕ} (hi : i < m.nframes % 2 ^ 20) (hend : i + n ≤ m.distinct) : m.Seen n i ↔
    m.Run n i := by
  unfold distinct at hend
  have hwrap : ∀ j < n, (i + j) % 2 ^ 20 = i + j := fun j hj => Nat.mod_eq_of_lt (by omega)
  constructor
  · intro h j hj
    have := h.2 j hj
    rw [hwrap j hj] at this
    exact ⟨by omega, this⟩
  · intro h
    refine ⟨hi, fun j hj => ?_⟩
    rw [hwrap j hj]
    exact (h j hj).2

theorem EndsUsed.not_seen {i : ℕ} (hu : m.EndsUsed n i) (hend : m.distinct < i + n) : ¬ m.Seen n i := by
  intro h
  obtain ⟨j, hj, hused⟩ := hu hend
  exact h.2 j hj hused

theorem endsUsed_of_not_seen {i : ℕ} (hi : i < m.nframes % 2 ^ 20) (h : ¬ m.Seen n i) : m.EndsUsed n i := by
  intro _
  by_contra hno
  push Not at hno
  exact h ⟨hi, hno⟩

/-- The search is right exactly in three cases: there is a run that begins where the loops look and ends
inside the frames that can be told apart; there is no run at all, and no row of clear bits goes on behind
these frames; or, in more than 4 GiB, the first run begins where such a row does, and no such row begins
before it. -/
theorem finds_run_iff (m : Frames) (n : ℕ) : m.FindsRun n ↔
    (∃ g < m.nframes % 2 ^ 20, g + n ≤ m.distinct ∧ m.Run n g) ∨
    ((¬ ∃ g, m.Run n g) ∧ ∀ i < m.nframes % 2 ^ 20, m.EndsUsed n i) ∨
    ∃ g < m.nframes % 2 ^ 20, m.distinct < g + n ∧ m.Run n g ∧ (∀ j < n, ¬ m.Used ((g + j) % 2 ^ 20)) ∧
      ∀ i < g, ¬ m.Run n i ∧ m.EndsUsed n i := by
  rw [findsRun_iff_seen]
  constructor
  · rintro ⟨hsound, hcomplete⟩
    refine or_iff_not_imp_left.mpr fun hinside => ?_
    have hbehind : ∀ i, m.Seen n i → m.distinct < i + n := by
      intro i hi
      by_contra hend
      exact hinside ⟨i, hi.1, Nat.not_lt.mp hend, (seen_iff_run hi.1 (Nat.not_lt.mp hend)).mp hi⟩
    by_cases hrun : ∃ g, m.Run n g
    · -- the first run is seen, as a run is seen before it and has a run before it
      have hfirst := Nat.find_spec hrun
      obtain ⟨i, hle, hi⟩ := hcomplete _ hfirst
      obtain ⟨g, hgi, hg⟩ := hsound i hi
      obtain rfl : i = Nat.find hrun := le_antisymm hle ((Nat.find_min' hrun hg).trans hgi)
      refine .inr ⟨_, hi.1, hbehind _ hi, hfirst, hi.2, fun k hk => ⟨Nat.find_min hrun hk, ?_⟩⟩
      refine endsUsed_of_not_seen (hk.trans hi.1) fun hseen => ?_
      obtain ⟨g, hgk, hg⟩ := hsound k hseen
      exact Nat.find_min hrun (hgk.trans_lt hk) hg
    · refine .inl ⟨hrun, fun i hi => endsUsed_of_not_seen hi fun hseen => ?_⟩
      obtain ⟨g, -, hg⟩ := hsound i hseen
      exact hrun ⟨g, hg⟩
  · rintro (⟨g, hlt, hend, hg⟩ | ⟨hno, hused⟩ | ⟨g, hlt, -, hg, hclear, hbefore⟩)
    · refine ⟨fun i hi => ?_, fun k hk => ?_⟩
      · by_cases hi' : i + n ≤ m.distinct
        · exact ⟨i, le_rfl, (seen_iff_run hi.1 hi').mp hi⟩
        · exact ⟨g, by omega, hg⟩
      · by_cases hkg : g ≤ k
        · exact ⟨g, hkg, (seen_iff_run hlt hend).mpr hg⟩
        · exact ⟨k, le_rfl, (seen_iff_run (by omega) (by omega)).mpr hk⟩
    · refine ⟨fun i hi => ?_, fun k hk => absurd ⟨k, hk⟩ hno⟩
      by_cases hi' : i + n ≤ m.distinct
      · exact ⟨i, le_rfl, (seen_iff_run hi.1 hi').mp hi⟩
      · exact absurd hi ((hused i hi.1).not_seen (Nat.not_le.mp hi'))
    · refine ⟨fun i hi => ⟨g, ?_, hg⟩, fun k hk => ⟨g, ?_, hlt, hclear⟩⟩
      · by_contra hig
        obtain ⟨hnot, hused⟩ := hbefore i (Nat.not_le.mp hig)
        by_cases hi' : i + n ≤ m.distinct
        · exact hnot ((seen_iff_run hi.1 hi').mp hi)
        · exact hused.not_seen (Nat.not_le.mp hi') hi
      · by_contra hkg
        exact (hbefore k (Nat.not_le.mp hkg)).1 hk

theorem finds_run_two : (⟨8, fun _ => 0xFFFFFF3F#32⟩ : Frames).FindsRun 2 :=
  (finds_run_iff _ 2).mpr (.inl ⟨6, by decide, by decide, by decide⟩)

/-- Of 8 frames only the last one is free, and the bits behind it are clear: it is taken for two frames. -/
theorem finds_outside : (⟨8, fun _ => 0x7F#32⟩ : Frames).firstNFrames 2 = 7 ∧ ¬ ∃ i,
    (⟨8, fun _ => 0x7F#32⟩ : Frames).Run 2 i := by
  refine ⟨by decide, ?_⟩
  rintro ⟨i, hi⟩
  have h0 := hi 0 (by norm_num)
  have h1 := hi 1 (by norm_num)
  have hlt : i < 7 := Nat.lt_of_succ_lt_succ h1.1
  have hused : ∀ i < 7, (⟨8, fun _ => 0x7F#32⟩ : Frames).Used (i + 0) := by decide
  exact h0.2 (hused i hlt)

end Frames

/-! ### Blocks with a physical address -/

namespace Mmu

variable {s : Mmu} {current address size : ℕ}

def mapToPhysical (s : Mmu) (current virtual : ℕ) : ℕ :=
  let remaining := virtual % 0x1000
  let frame := virtual / 0x1000
  let table := frame / 1024
  let subframe := frame % 1024
  if (s.dirs current).tables table ≠ 0 then
    ((s.tables ((s.dirs current).tables table) subframe).frame * 0x1000 + remaining) % 2 ^ 32
  else 0

def pagesOf (size : ℕ) : ℕ := (size + 0xFFF) / 0x1000

/-- The first loop. A block ends below 4 GiB, so that it makes a round for every page. -/
def giveBack (s : Mmu) (current address size : ℕ) : Mmu :=
  { s with map :=
    (List.range (pagesOf size)).foldl (fun m i =>
    m.clearFrame (s.mapToPhysical current (address + 0x1000 * i))) s.map }

def dmaPage (index address : ℕ) (s : Mmu) (i : ℕ) : Mmu :=
  let s := { s with map := s.map.setFrame ((index + i) * 0x1000 % 2 ^ 32) }
  match s.getPage (address + i * 0x1000) false s.kernelDirectory with
  | (some (table, j), s) =>
    s.setPage table j
      { s.tables table j with frame := (index + i) % 2 ^ 20, writethrough := true, cachedisable := true }
  | (none, s) => s

/-- `kmalloc_real` once there is a heap, which gives the block at `address`. The results are the return
value and what is stored at `phys`. -/
def kmallocReal (s : Mmu) (current address size : ℕ) (align phys : Bool) : ℕ × Option ℕ × Mmu :=
  if phys then
    if align ∧ size ≥ 0x3000 then
      let s := s.giveBack current address size
      let index := s.map.firstNFrames (pagesOf size)
      if index = 0xFFFFFFFF then (0, none, s)
      else
        let s := (List.range (pagesOf size)).foldl (dmaPage index address) s
        (address, some (s.mapToPhysical current address), s)
    else (address, some (s.mapToPhysical current address), s)
  else (address, none, s)

def blockFrame (s : Mmu) (current address i : ℕ) : ℕ := s.mapToPhysical current
    (address + 0x1000 * i) / 0x1000

/-- Nothing has changed, and the frames of the block are still marked. -/
structure Intact (s : Mmu) (current address size : ℕ) (s' : Mmu) : Prop where
  map : s'.map = s.map
  tables : s'.tables = s.tables
  dirs : s'.dirs = s.dirs
  used : ∀ i < pagesOf size, s'.map.Used (s'.blockFrame current address i)

theorem clearFrame_used (m : Frames) (a g : ℕ) : (m.clearFrame a).Used g ↔ m.Used g ∧ g ≠ a / 0x1000 := by
  have hsame : m.clearFrame a = m.clearFrame (a / 0x1000 * 0x1000) := by
    unfold Frames.clearFrame
    rw [Nat.mul_div_cancel _ (by norm_num)]
  rw [hsame, Frames.used_clearFrame]

theorem giveBack_used (s : Mmu) (current address size g : ℕ) : (s.giveBack current address size).map.Used g ↔
    s.map.Used g ∧ ∀ i < pagesOf size, g ≠ s.blockFrame current address i := by
  unfold giveBack
  dsimp only
  induction pagesOf size with
  | zero => simp
  | succ n ih =>
    rw [range_succ, foldl_append, foldl_cons, foldl_nil, clearFrame_used, ih, Nat.forall_lt_succ_right,
      and_assoc]
    rfl

/-- When there is no run of frames, the frames of the block are marked free and stay mapped. -/
theorem dma_failure_never_intact (s : Mmu) (current address size : ℕ) (hsize : size ≥ 0x3000)
    (hnone : (s.giveBack current address size).map.firstNFrames (pagesOf size) = noFrame) :
    (s.kmallocReal current address size true true).1 = 0 ∧
      ¬ s.Intact current address size (s.kmallocReal current address size true true).2.2 := by
  have hlarge : (true : Bool) = true ∧ size ≥ 0x3000 := ⟨rfl, hsize⟩
  have hrun : s.kmallocReal current address size true true = (0, none, s.giveBack current address size) := by
    unfold kmallocReal
    rw [if_pos rfl, if_pos hlarge]
    exact if_pos hnone
  rw [hrun]
  refine ⟨rfl, fun h => ?_⟩
  have hpos : 0 < pagesOf size := by
    unfold pagesOf
    omega
  have hused := (giveBack_used s current address size _).mp (h.used 0 hpos)
  exact hused.2 0 hpos rfl

/-- All of 32 frames are marked, and the pages from `0x800000` on have the frames 1, 3, 5, …. -/
def fullMmu : Mmu where
  map := ⟨32, fun _ => 0xFFFFFFFF#32⟩
  dirs _ := { Directory.zero with tables := fun _ => 1 }
  tables _ j := { Page.zero with present := true, frame := 2 * j + 1 }
  memory _ _ := 0
  kernelDirectory := 1
  heap _ := (0, 0)
  calls := 0

theorem dma_failure_full : (fullMmu.giveBack 1 0x800000 0x3000).map.firstNFrames (pagesOf 0x3000) = noFrame ∧
    (fullMmu.kmallocReal 1 0x800000 0x3000 true true).1 = 0 ∧
    ¬ fullMmu.Intact 1 0x800000 0x3000 (fullMmu.kmallocReal 1 0x800000 0x3000 true true).2.2 := by
  have hnone : (fullMmu.giveBack 1 0x800000 0x3000).map.firstNFrames (pagesOf 0x3000) =
    noFrame := by decide +kernel
  exact ⟨hnone, dma_failure_never_intact _ _ _ _ (by norm_num) hnone⟩

/-- Frame 3 is marked free and still mapped at the second page of the block. -/
theorem dma_failure_frees : (fullMmu.kmallocReal 1 0x800000 0x3000 true true).1 = 0 ∧ fullMmu.map.Used 3 ∧
    ¬ (fullMmu.kmallocReal 1 0x800000 0x3000 true true).2.2.map.Used 3 ∧
    (fullMmu.kmallocReal 1 0x800000 0x3000 true true).2.2.blockFrame 1 0x800000 1 = 3 := by
  decide +kernel

end Mmu

end ChiffOS.Mem
