import Mathlib.Tactic

/-! The physical frame allocator of `mem.c`: a bitmap of 32-bit words, the search for the first
clear bit, and the page entries that hold frames. Addresses are 32-bit, so `nframes * 4 * 0x400`
wraps for 4 GiB of memory, and a page entry has 20 bits for its frame. -/

namespace ChiffOS.Mem

open Function List

structure Frames where
  nframes : ℕ
  frames : ℕ → BitVec 32

structure Page where
  present : Bool
  rw : Bool
  user : Bool
  writethrough : Bool
  cachedisable : Bool
  frame : ℕ
deriving DecidableEq

def Page.zero : Page := ⟨false, false, false, false, false, 0⟩

def indexFromBit (b : ℕ) : ℕ := b / 0x20
def offsetFromBit (b : ℕ) : ℕ := b % 0x20

/-- What `first_frame` returns when it finds nothing. -/
def noFrame : ℕ := 0xFFFFFFFF

namespace Frames

def setFrame (m : Frames) (frameAddr : ℕ) : Frames :=
  if frameAddr < m.nframes * 4 * 0x400 % 2 ^ 32 then
    let frame := frameAddr / 0x1000
    let index := indexFromBit frame
    let offset := offsetFromBit frame
    { m with frames := update m.frames index (m.frames index ||| 1#32 <<< offset) }
  else m

def clearFrame (m : Frames) (frameAddr : ℕ) : Frames :=
  let frame := frameAddr / 0x1000
  let index := indexFromBit frame
  let offset := offsetFromBit frame
  { m with frames := update m.frames index (m.frames index &&& ~~~(1#32 <<< offset)) }

/-- The two loops of `first_frame`, and what it returns after the crash message. -/
def firstFrame (m : Frames) : ℕ :=
  ((List.range (indexFromBit m.nframes)).findSome? fun i =>
    if m.frames i ≠ 0xFFFFFFFF#32 then
      ((List.range 32).find? fun j => !(m.frames i).getLsbD j).map (i * 0x20 + ·)
    else none).getD noFrame

def allocFrame (m : Frames) (page : Page) (isKernel isWriteable : ℕ) : Page × Frames :=
  if page.frame ≠ 0 then
    ({ page with
        present := true
        rw := if isWriteable = 1 then true else true
        user := if isKernel = 1 then true else true }, m)
  else
    let index := m.firstFrame
    ({ page with
        frame := index % 2 ^ 20
        present := true
        rw := if isWriteable = 1 then true else true
        user := if isKernel = 1 then true else true }, m.setFrame (index * 0x1000 % 2 ^ 32))

def freeFrame (m : Frames) (page : Page) : Page × Frames :=
  if page.frame = 0 then (page, m)
  else ({ page with frame := 0 }, m.clearFrame (page.frame * 0x1000 % 2 ^ 32))

/-! ### The bitmap as a set of frames -/

def Used (m : Frames) (f : ℕ) : Prop := (m.frames (indexFromBit f)).getLsbD (offsetFromBit f) = true

instance (m : Frames) : DecidablePred m.Used := fun f => by unfold Used; infer_instance

/-- The frame is clear, in one of the complete words that `first_frame` looks at. -/
def Free (m : Frames) (f : ℕ) : Prop := f < 0x20 * indexFromBit m.nframes ∧ ¬ m.Used f

instance (m : Frames) : DecidablePred m.Free := fun f => by unfold Free; infer_instance

variable {m : Frames} {f g : ℕ}

theorem Free.lt (h : m.Free f) : f < m.nframes := by
  have h1 := h.1
  unfold indexFromBit at h1
  omega

theorem bit_eq_iff : indexFromBit g = indexFromBit f ∧ offsetFromBit g = offsetFromBit f ↔ g = f := by
  unfold indexFromBit offsetFromBit
  omega

theorem bound_eq (m : Frames) : m.nframes * 4 * 0x400 % 2 ^ 32 = m.nframes % 2 ^ 20 * 0x1000 := by omega

theorem used_setFrame (h : f < m.nframes % 2 ^ 20) : (m.setFrame (f * 0x1000)).Used g ↔ m.Used g ∨ g = f := by
  have hlt : f * 0x1000 < m.nframes * 4 * 0x400 % 2 ^ 32 := by
    rw [bound_eq]
    omega
  have hg : offsetFromBit g < 32 := Nat.mod_lt _ (by norm_num)
  simp only [setFrame, if_pos hlt, Nat.mul_div_cancel _ (show 0 < 0x1000 by norm_num), Used]
  rw [← bit_eq_iff]
  by_cases hi : indexFromBit g = indexFromBit f
  · rw [hi, update_self]
    simp only [BitVec.getLsbD_or, BitVec.getLsbD_shiftLeft, BitVec.getLsbD_one]
    grind
  · rw [update_of_ne hi]
    simp [hi]

theorem used_clearFrame : (m.clearFrame (f * 0x1000)).Used g ↔ m.Used g ∧ g ≠ f := by
  have hg : offsetFromBit g < 32 := Nat.mod_lt _ (by norm_num)
  simp only [clearFrame, Nat.mul_div_cancel _ (show 0 < 0x1000 by norm_num), Used]
  rw [Ne, ← bit_eq_iff]
  by_cases hi : indexFromBit g = indexFromBit f
  · rw [hi, update_self]
    simp only [BitVec.getLsbD_and, BitVec.getLsbD_not, BitVec.getLsbD_shiftLeft, BitVec.getLsbD_one]
    grind
  · rw [update_of_ne hi]
    simp [hi]

@[simp] theorem setFrame_nframes (m : Frames) (a : ℕ) : (m.setFrame a).nframes = m.nframes := by
  unfold setFrame
  split_ifs <;> rfl

/-! ### The search -/

/-- The frames that `first_frame` can return, in its order. -/
def freeFrames (m : Frames) : List ℕ := (List.range (0x20 * indexFromBit m.nframes)).filter fun f =>
    ¬ m.Used f

theorem mem_freeFrames : f ∈ m.freeFrames ↔ m.Free f := by
  simp [freeFrames, Free]

theorem freeFrames_sorted : m.freeFrames.Pairwise (· < ·) := pairwise_lt_range.filter _

theorem used_of_ones {i : ℕ} (h : m.frames i = 0xFFFFFFFF#32) {j : ℕ} (hj : j < 32) :
    (m.frames i).getLsbD j = true := by
  rw [h]
  revert j
  decide

theorem find_word (m : Frames) (i : ℕ) :
    ((List.range 32).map (0x20 * i + ·)).find? (fun f => ¬ m.Used f) =
      if m.frames i ≠ 0xFFFFFFFF#32 then
        ((List.range 32).find? fun j => !(m.frames i).getLsbD j).map (i * 0x20 + ·) else none := by
  have hbit : ∀ j < 32, m.Used (0x20 * i + j) ↔ (m.frames i).getLsbD j = true := by
    intro j hj
    have hidx : indexFromBit (0x20 * i + j) = i := by unfold indexFromBit; omega
    have hoff : offsetFromBit (0x20 * i + j) = j := by unfold offsetFromBit; omega
    rw [Used, hidx, hoff]
  split_ifs with hw
  · rw [List.find?_map, Nat.mul_comm]
    congr 1
    apply List.find?_congr
    intro j hj
    rw [comp_apply, Nat.mul_comm, decide_not]
    simp only [hbit j (mem_range.mp hj), Bool.decide_eq_true]
  · rw [not_not] at hw
    rw [List.find?_eq_none]
    intro f hf
    obtain ⟨j, hj, rfl⟩ := mem_map.mp hf
    have hj := mem_range.mp hj
    simp [(hbit j hj).mpr (used_of_ones hw hj)]

theorem firstFrame_eq (m : Frames) : m.firstFrame = m.freeFrames.head?.getD noFrame := by
  rw [firstFrame, freeFrames, List.head?_filter]
  congr 1
  -- the loop over the words is a search over all frames
  induction indexFromBit m.nframes with
  | zero => rfl
  | succ n ih =>
    rw [range_succ (n := n), List.findSome?_append, ih, Nat.mul_succ, range_add, List.find?_append, find_word,
      List.findSome?_singleton]

theorem firstFrame_free (h : ∃ f, m.Free f) : m.Free m.firstFrame := by
  obtain ⟨f, hf⟩ := h
  have hmem := mem_freeFrames.mpr hf
  rw [firstFrame_eq]
  cases hl : m.freeFrames with
  | nil => rw [hl] at hmem; exact absurd hmem not_mem_nil
  | cons g gs =>
    apply mem_freeFrames.mp
    simp [hl]

theorem firstFrame_none (h : ∀ f, ¬ m.Free f) : m.firstFrame = noFrame := by
  have hl : m.freeFrames = [] := eq_nil_iff_forall_not_mem.mpr fun f hf => h f (mem_freeFrames.mp hf)
  rw [firstFrame_eq, hl]
  rfl

/-- What an allocation for an empty entry does: one free frame is marked. -/
structure Took (m : Frames) (f : ℕ) (m' : Frames) : Prop where
  free : m.Free f
  nframes : m'.nframes = m.nframes
  used_iff : ∀ g, m'.Used g ↔ m.Used g ∨ g = f

theorem allocFrame_took (hn : m.nframes < 2 ^ 20) (h : ∃ f, m.Free f) {page : Page} (hp : page.frame = 0)
    (k w : ℕ) :
    Took m (m.allocFrame page k w).1.frame (m.allocFrame page k w).2 := by
  have hfree := firstFrame_free h
  have hlt := hfree.lt
  have hframe : m.firstFrame % 2 ^ 20 = m.firstFrame := Nat.mod_eq_of_lt (by omega)
  have haddr : m.firstFrame * 0x1000 % 2 ^ 32 = m.firstFrame * 0x1000 := Nat.mod_eq_of_lt (by omega)
  simp only [allocFrame, hp, ne_eq, not_true_eq_false, if_false, hframe, haddr]
  exact ⟨hfree, setFrame_nframes _ _, fun g => used_setFrame (by rwa [Nat.mod_eq_of_lt hn])⟩

theorem allocFrame_held {page : Page} (hp : page.frame ≠ 0) (k w : ℕ) :
    (m.allocFrame page k w).1.frame = page.frame ∧ (m.allocFrame page k w).2 = m := by
  simp [allocFrame, hp]

/-! ### Several allocations in a row -/

theorem freeFrames_setFrame {fs : List ℕ} (h : m.freeFrames = f :: fs) (hf : f < m.nframes % 2 ^ 20) :
    (m.setFrame (f * 0x1000)).freeFrames = fs := by
  have hsorted := m.freeFrames_sorted
  rw [h, pairwise_cons] at hsorted
  have hstep : (m.setFrame (f * 0x1000)).freeFrames = m.freeFrames.filter fun g => g ≠ f := by
    simp only [freeFrames, setFrame_nframes, filter_filter]
    congr 1
    funext g
    simp only [used_setFrame hf]
    by_cases h1 : m.Used g <;> by_cases h2 : g = f <;> simp [h1, h2]
  rw [hstep, h, filter_cons_of_neg (by simp), filter_eq_self]
  intro g hg
  have := hsorted.1 g hg
  simp
  omega

/-! ### Frames that can be marked -/

/-- The free frames below the bound of `set_frame`. -/
def markable (m : Frames) : List ℕ := m.freeFrames.filter (· < m.nframes % 2 ^ 20)

/-- While there is such a frame, an allocation takes one. -/
theorem firstFrame_markable (h : 0 < m.markable.length) :
    m.Free m.firstFrame ∧ m.firstFrame < m.nframes % 2 ^ 20 ∧
      (m.setFrame (m.firstFrame * 0x1000 % 2 ^ 32)).markable.length + 1 = m.markable.length := by
  obtain ⟨g, hg⟩ := exists_mem_of_length_pos h
  obtain ⟨hgfree, hgb⟩ := mem_filter.mp hg
  have hgb' : g < m.nframes % 2 ^ 20 := by simpa using hgb
  cases hl : m.freeFrames with
  | nil =>
    rw [hl] at hgfree
    exact absurd hgfree not_mem_nil
  | cons f fs =>
    have hfirst : m.firstFrame = f := by simp [firstFrame_eq, hl]
    have hle : f ≤ g := by
      have hs := m.freeFrames_sorted
      rw [hl] at hs hgfree
      rcases mem_cons.mp hgfree with rfl | hm
      · exact le_rfl
      · exact ((pairwise_cons.mp hs).1 g hm).le
    have hf : f < m.nframes % 2 ^ 20 := by omega
    have haddr : f * 0x1000 % 2 ^ 32 = f * 0x1000 := Nat.mod_eq_of_lt (by omega)
    rw [hfirst, haddr]
    refine ⟨mem_freeFrames.mp (by simp [hl]), hf, ?_⟩
    rw [markable, markable, freeFrames_setFrame hl hf, setFrame_nframes, hl,
      filter_cons_of_pos (by simpa using hf),
      length_cons]

end Frames

/-! ### Entries and the frames they hold -/

section Entries

variable {ι : Type} [DecidableEq ι]

structure Entries (ι : Type) where
  map : Frames
  page : ι → Page

inductive PageOp (ι : Type) where
  | alloc (e : ι) (isKernel isWriteable : ℕ)
  | free (e : ι)

namespace Entries

def step (s : Entries ι) : PageOp ι → Entries ι
  | .alloc e k w =>
    let r := s.map.allocFrame (s.page e) k w
    ⟨r.2, update s.page e r.1⟩
  | .free e =>
    let r := s.map.freeFrame (s.page e)
    ⟨r.2, update s.page e r.1⟩

def Allowed (s : Entries ι) : PageOp ι → Prop
  | .alloc _ _ _ => ∃ f, s.map.Free f
  | .free e => (s.page e).frame ≠ 0

def run (s : Entries ι) (ops : List (PageOp ι)) : Entries ι := ops.foldl step s

def AllowedRun : Entries ι → List (PageOp ι) → Prop
  | _, [] => True
  | s, op :: ops => s.Allowed op ∧ AllowedRun (s.step op) ops

/-- Frames have one owner. The bits used at the start are reserved. -/
structure Owned (start : Frames) (s : Entries ι) : Prop where
  inj : ∀ e e', (s.page e).frame ≠ 0 → (s.page e).frame = (s.page e').frame → e = e'
  held : ∀ e, (s.page e).frame ≠ 0 → (s.page e).frame < s.map.nframes ∧ s.map.Used (s.page e).frame
  owner : ∀ f, s.map.Used f → ¬ start.Used f → ∃! e, (s.page e).frame = f
  again : ∀ e k w, (s.page e).frame ≠ 0 → (s.step (.alloc e k w)).map = s.map

/-- What every step keeps, with the reserved bits. -/
structure Inv (start : Frames) (s : Entries ι) : Prop where
  nframes : s.map.nframes = start.nframes
  reserved : ∀ f, start.Used f → s.map.Used f
  fresh : ∀ e, (s.page e).frame ≠ 0 → ¬ start.Used (s.page e).frame
  inj : ∀ e e', (s.page e).frame ≠ 0 → (s.page e).frame = (s.page e').frame → e = e'
  held : ∀ e, (s.page e).frame ≠ 0 → (s.page e).frame < s.map.nframes ∧ s.map.Used (s.page e).frame
  owner : ∀ f, s.map.Used f → ¬ start.Used f → ∃ e, (s.page e).frame = f

variable {start : Frames} {s : Entries ι}

theorem Inv.alloc (h : Inv start s) (hn : start.nframes < 2 ^ 20) (h0 : start.Used 0) {e : ι} {k w : ℕ}
    (hfree : ∃ f, s.map.Free f) : Inv start (s.step (.alloc e k w)) := by
  by_cases hp : (s.page e).frame = 0
  · -- an empty entry gets a frame that was free
    have ht := Frames.allocFrame_took (h.nframes ▸ hn) hfree hp k w
    simp only [step]
    set r := s.map.allocFrame (s.page e) k w
    have hr0 : ¬ start.Used r.1.frame := fun hu => ht.free.2 (h.reserved _ hu)
    have hpage : ∀ x, ((update s.page e r.1) x).frame = if x = e then r.1.frame else (s.page x).frame := by
      intro x
      by_cases hx : x = e
      · subst hx; simp
      · simp [hx]
    have hother : ∀ x, (s.page x).frame ≠ 0 → (s.page x).frame ≠ r.1.frame :=
      fun x hx he => ht.free.2 (he ▸ (h.held x hx).2)
    constructor
    · exact ht.nframes.trans h.nframes
    · intro f hf
      exact (ht.used_iff f).mpr (.inl (h.reserved f hf))
    · intro x hx
      rw [hpage] at hx ⊢
      split_ifs at hx ⊢ with hxe
      · exact hr0
      · exact h.fresh x hx
    · intro x y hx hxy
      rw [hpage] at hx hxy
      rw [hpage y] at hxy
      split_ifs at hx hxy with h1 h2 h2
      · rw [h1, h2]
      · rw [hxy] at hx
        exact absurd hxy.symm (hother y hx)
      · exact absurd hxy (hother x hx)
      · exact h.inj x y hx hxy
    · intro x hx
      rw [hpage] at hx ⊢
      split_ifs at hx ⊢ with hxe
      · exact ⟨by rw [ht.nframes]; exact ht.free.lt, (ht.used_iff _).mpr (.inr rfl)⟩
      · exact ⟨by rw [ht.nframes]; exact (h.held x hx).1, (ht.used_iff _).mpr (.inl (h.held x hx).2)⟩
    · intro f hf hs
      rcases (ht.used_iff f).mp hf with hu | rfl
      · obtain ⟨x, hx⟩ := h.owner f hu hs
        refine ⟨x, ?_⟩
        rw [hpage, if_neg, hx]
        rintro rfl
        rw [hp] at hx
        exact hs (hx ▸ h0)
      · exact ⟨e, by rw [hpage, if_pos rfl]⟩
  · -- an entry with a frame keeps it
    obtain ⟨h1, h2⟩ := Frames.allocFrame_held (m := s.map) hp k w
    have hpage : ∀ x, ((s.step (.alloc e k w)).page x).frame = (s.page x).frame := by
      intro x
      by_cases hx : x = e
      · subst hx; simpa [step] using h1
      · simp [step, hx]
    have hmap : (s.step (.alloc e k w)).map = s.map := h2
    constructor
    · rw [hmap]; exact h.nframes
    · rw [hmap]; exact h.reserved
    · simpa only [hpage] using h.fresh
    · simpa only [hpage] using h.inj
    · simpa only [hpage, hmap] using h.held
    · simpa only [hpage, hmap] using h.owner

theorem Inv.free (h : Inv start s) (hn : start.nframes < 2 ^ 20) {e : ι} (hp : (s.page e).frame ≠ 0) :
    Inv start (s.step (.free e)) := by
  obtain ⟨hlt, hu⟩ := h.held e hp
  have hfr := h.fresh e hp
  have hnf := h.nframes
  have haddr : (s.page e).frame * 0x1000 % 2 ^ 32 = (s.page e).frame * 0x1000 := Nat.mod_eq_of_lt (by omega)
  have hmap : (s.step (.free e)).map = s.map.clearFrame ((s.page e).frame * 0x1000) := by
    simp only [step, Frames.freeFrame, hp, if_false, haddr]
  have hused : ∀ g, (s.step (.free e)).map.Used g ↔ s.map.Used g ∧ g ≠ (s.page e).frame := by
    intro g
    rw [hmap]
    exact Frames.used_clearFrame
  have hpage : ∀ x, ((s.step (.free e)).page x).frame = if x = e then 0 else (s.page x).frame := by
    intro x
    by_cases hx : x = e
    · subst hx; simp [step, Frames.freeFrame, hp]
    · simp [step, hx]
  constructor
  · rw [hmap]; exact hnf
  · intro f hf
    refine (hused f).mpr ⟨h.reserved f hf, ?_⟩
    rintro rfl
    exact hfr hf
  · intro x hx
    rw [hpage] at hx ⊢
    split_ifs at hx ⊢ with hxe
    · exact absurd rfl hx
    · exact h.fresh x hx
  · intro x y hx hxy
    rw [hpage] at hx hxy
    rw [hpage y] at hxy
    split_ifs at hx hxy with h1 h2 h2
    · exact absurd rfl hx
    · exact absurd rfl hx
    · exact absurd hxy hx
    · exact h.inj x y hx hxy
  · intro x hx
    rw [hpage] at hx ⊢
    split_ifs at hx ⊢ with hxe
    · exact absurd rfl hx
    · refine ⟨by rw [hmap]; exact (h.held x hx).1, (hused _).mpr ⟨(h.held x hx).2, ?_⟩⟩
      intro he
      exact hxe (h.inj x e hx he)
  · intro f hf hs
    obtain ⟨hf, hne⟩ := (hused f).mp hf
    obtain ⟨x, hx⟩ := h.owner f hf hs
    refine ⟨x, ?_⟩
    rw [hpage, if_neg, hx]
    rintro rfl
    exact hne hx.symm

theorem Inv.run (hn : start.nframes < 2 ^ 20) (h0 : start.Used 0) :
    ∀ (ops : List (PageOp ι)) (s : Entries ι), Inv start s → s.AllowedRun ops → Inv start (s.run ops) := by
  intro ops
  induction ops with
  | nil => intro s h _; exact h
  | cons op ops ih =>
    intro s h hall
    apply ih _ _ hall.2
    cases op with
    | alloc e k w => exact h.alloc hn h0 hall.1
    | free e => exact h.free hn hall.1

theorem Inv.owned (h : Inv start s) (h0 : start.Used 0) : Owned start s where
  inj := h.inj
  held := h.held
  owner f hf hs := by
    obtain ⟨e, he⟩ := h.owner f hf hs
    refine ⟨e, he, fun e' he' => ?_⟩
    apply h.inj e' e _ (he'.trans he.symm)
    intro hz
    apply hs
    rw [← he', hz]
    exact h0
  again e k w he := (Frames.allocFrame_held he k w).2

/-- Any history of allocations and releases, from empty entries. -/
theorem frames_one_owner (start : Frames) (page : ι → Page) (ops : List (PageOp ι))
    (hn : start.nframes < 2 ^ 20)
    (h0 : start.Used 0) (hpage : ∀ e, (page e).frame = 0) (hall : AllowedRun ⟨start, page⟩ ops) :
    Owned start (run ⟨start, page⟩ ops) := by
  refine (Inv.run hn h0 ops _ ?_ hall).owned h0
  refine ⟨rfl, fun _ h => h, ?_, ?_, ?_, fun f hf hs => absurd hf hs⟩
  · intro e he
    exact absurd (hpage e) he
  · intro e e' he
    exact absurd (hpage e) he
  · intro e he
    exact absurd (hpage e) he

/-- 64 frames of which only frame 0 is used: two entries get frames 1 and 2, the first gives its frame
back, and the third entry gets it. -/
theorem frames_one_owner_small :
    Owned ⟨64, fun i => if i = 0 then 1#32 else 0#32⟩ (run ⟨⟨64, fun i => if i = 0 then 1#32 else 0#32⟩,
      fun _ : ℕ => Page.zero⟩ [.alloc 0 0 0, .alloc 1 0 1, .free 0, .alloc 2 0 0, .alloc 2 0 0]) := by
  refine frames_one_owner _ _ _ (by decide) (by decide) (fun _ => rfl) ?_
  refine ⟨⟨40, by decide⟩, ⟨40, by decide⟩,
    show (_ : ℕ) ≠ 0 by decide, ⟨40, by decide⟩, ⟨40, by decide⟩, trivial⟩

end Entries

end Entries

end ChiffOS.Mem
