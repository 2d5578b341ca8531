import ChiffOS.Ext2.Cache

/-! What keeps the cache harmless. Every block in the cache is held by one entry, a clean
entry holds what the device holds, and no two cached blocks share device bytes. The device
as it would be after a sync (`flushed`) is then all that a caller can observe: a read
returns its bytes, a write changes the bytes of one block of it, and evictions do not show. -/

namespace ChiffOS.Ext2

open Buf List

/-- The blocks in use are stored in different places of the device. -/
def NoAlias (bs : ℕ) (S : ℕ → Prop) : Prop :=
  ∀ a b, S a → S b → a ≠ b → blockOffset bs a ≠ blockOffset bs b

def Covers (bs a : ℕ) (e : CacheEntry) : Prop :=
  e.dirty = true ∧ blockOffset bs e.blockNo ≤ a ∧ a < blockOffset bs e.blockNo + bs

def flush (bs : ℕ) (dev : Buf) (dc : List CacheEntry) : Buf := (Fs.syncEntries bs dc dev).2

structure Coherent (bs : ℕ) (S : ℕ → Prop) (dev : Buf) (dc : List CacheEntry) : Prop where
  inj : ∀ (i j : ℕ) (e f : CacheEntry), dc[i]? = some e → dc[j]? = some f → e.blockNo ≠ 0 →
    e.blockNo = f.blockNo → i = j
  used : ∀ e ∈ dc, e.blockNo ≠ 0 → S e.blockNo
  empty : ∀ e ∈ dc, e.blockNo = 0 → e.dirty = false
  clean : ∀ e ∈ dc, e.blockNo ≠ 0 → e.dirty = false →
    ∀ i < bs, e.block i = dev (blockOffset bs e.blockNo + i)
  age : ∀ e ∈ dc, e.lastUse < uint32Max

/-- What is left of it where the calls name other blocks than those of `S` as well: the cache holds no
wrong copy of a block of `S`, and it is to write back no other block. -/
structure Sound (bs : ℕ) (S : ℕ → Prop) (dev : Buf) (dc : List CacheEntry) : Prop where
  inj : ∀ (i j : ℕ) (e f : CacheEntry), dc[i]? = some e → dc[j]? = some f → S e.blockNo →
    e.blockNo = f.blockNo → i = j
  dirty : ∀ e ∈ dc, e.dirty = true → S e.blockNo
  clean : ∀ e ∈ dc, S e.blockNo → e.dirty = false →
    ∀ i < bs, e.block i = dev (blockOffset bs e.blockNo + i)

section Offsets

variable {bs : ℕ} (hbs : bs ∣ 2 ^ 32)
include hbs

theorem dvd_blockOffset (b : ℕ) : bs ∣ blockOffset bs b :=
  (Nat.dvd_mod_iff hbs).mpr (Dvd.intro_left b rfl)

theorem offsets_apart {a b : ℕ} (h : blockOffset bs a ≠ blockOffset bs b) :
    blockOffset bs a + bs ≤ blockOffset bs b ∨ blockOffset bs b + bs ≤ blockOffset bs a := by
  obtain ⟨x, hx⟩ := dvd_blockOffset hbs a
  obtain ⟨y, hy⟩ := dvd_blockOffset hbs b
  rw [hx, hy] at h ⊢
  rcases Nat.lt_trichotomy x y with hlt | heq | hlt
  · left; calc bs * x + bs = bs * (x + 1) := by ring
      _ ≤ bs * y := Nat.mul_le_mul_left _ hlt
  · exact absurd (by rw [heq]) h
  · right; calc bs * y + bs = bs * (y + 1) := by ring
      _ ≤ bs * x := Nat.mul_le_mul_left _ hlt

end Offsets

section Flush

variable {bs : ℕ}

theorem flush_cons (dev : Buf) (e : CacheEntry) (es : List CacheEntry) :
    flush bs dev (e :: es) =
      flush bs (if e.dirty then writeFs dev (blockOffset bs e.blockNo) bs e.block else dev) es := by
  unfold flush
  rw [Fs.syncEntries]
  split_ifs <;> rfl

/-- An address that no dirty entry covers keeps its byte. -/
theorem flush_uncovered {dc : List CacheEntry} {dev : Buf} {a : ℕ} (h : ∀ e ∈ dc, ¬ Covers bs a e) :
    flush bs dev dc a = dev a := by
  induction dc generalizing dev with
  | nil => rfl
  | cons e es ih =>
    rw [flush_cons, ih fun f hf => h f (mem_cons_of_mem _ hf)]
    split_ifs with hd
    · have := h e (by simp)
      exact blit_out (by simp only [Covers, hd, true_and] at this; omega)
    · rfl

/-- Where the dirty entries do not overlap, a covered address gets the byte of the entry that
covers it. -/
theorem flush_covered {dc : List CacheEntry} {dev : Buf} {a : ℕ} {e : CacheEntry}
    (hp : dc.Pairwise fun e f => Covers bs a e → ¬ Covers bs a f) (he : e ∈ dc) (hc : Covers bs a e) :
    flush bs dev dc a = e.block (a - blockOffset bs e.blockNo) := by
  induction dc generalizing dev with
  | nil => simp at he
  | cons f fs ih =>
    rw [pairwise_cons] at hp
    rw [flush_cons]
    rcases mem_cons.mp he with rfl | hmem
    · rw [flush_uncovered fun g hg => hp.1 g hg hc, if_pos hc.1]
      exact blit_in hc.2.1 hc.2.2
    · exact ih hp.2 hmem

end Flush

theorem mem_set {dc : List CacheEntry} {k : ℕ} {e e' f : CacheEntry} (hk : dc[k]? = some e)
    (hf : f ∈ dc.set k e') :
    f = e' ∨ ∃ j, j ≠ k ∧ dc[j]? = some f := by
  obtain ⟨j, hj⟩ := List.getElem?_of_mem hf
  by_cases hjk : k = j
  · subst hjk
    rw [List.getElem?_set_self (List.getElem?_eq_some_iff.mp hk).1] at hj
    exact .inl (Option.some.inj hj).symm
  · rw [List.getElem?_set_ne hjk] at hj
    exact .inr ⟨j, Ne.symm hjk, hj⟩

namespace Sound

variable {bs : ℕ} {S : ℕ → Prop} {dev : Buf} {dc : List CacheEntry}

theorem covers_eq (hc : Sound bs S dev dc) (hbs : bs ∣ 2 ^ 32) (ha : NoAlias bs S)
    {i j a : ℕ} {e f : CacheEntry} (hi : dc[i]? = some e) (hj : dc[j]? = some f)
    (he : Covers bs a e) (hf : Covers bs a f) : i = j := by
  have heS := hc.dirty e (mem_of_getElem? hi) he.1
  have hfS := hc.dirty f (mem_of_getElem? hj) hf.1
  refine hc.inj i j e f hi hj heS ?_
  by_contra hne
  have hd := offsets_apart hbs (ha _ _ heS hfS hne)
  obtain ⟨-, h1, h2⟩ := he
  obtain ⟨-, h3, h4⟩ := hf
  omega

theorem pairwise (hc : Sound bs S dev dc) (hbs : bs ∣ 2 ^ 32) (ha : NoAlias bs S) (a : ℕ) :
    dc.Pairwise fun e f => Covers bs a e → ¬ Covers bs a f := by
  rw [pairwise_iff_getElem]
  intro i j hi hj hij he hf
  have := hc.covers_eq hbs ha (List.getElem?_eq_getElem hi) (List.getElem?_eq_getElem hj) he hf
  omega

/-- A used block that no dirty entry holds is read from the device. -/
theorem flush_block (hc : Sound bs S dev dc) (hbs : bs ∣ 2 ^ 32) (ha : NoAlias bs S)
    {b : ℕ} (hb : S b) (hno : ∀ e ∈ dc, e.blockNo = b → e.dirty = false) {i : ℕ} (hi : i < bs) :
    flush bs dev dc (blockOffset bs b + i) = dev (blockOffset bs b + i) := by
  refine flush_uncovered fun e he hcov => ?_
  have hne : e.blockNo ≠ b := fun h => by simp [hno e he h, Covers] at hcov
  have hd := offsets_apart hbs (ha _ _ (hc.dirty e he hcov.1) hb hne)
  obtain ⟨-, h1, h2⟩ := hcov
  omega

theorem flush_entry (hc : Sound bs S dev dc) (hbs : bs ∣ 2 ^ 32) (ha : NoAlias bs S)
    {k : ℕ} {e : CacheEntry} (hk : dc[k]? = some e) (hS : S e.blockNo) {i : ℕ} (hi : i < bs) :
    flush bs dev dc (blockOffset bs e.blockNo + i) = e.block i := by
  have he := mem_of_getElem? hk
  cases hd : e.dirty with
  | true =>
    rw [flush_covered (hc.pairwise hbs ha _) he ⟨hd, by omega, by omega⟩]
    congr 1; omega
  | false =>
    rw [hc.flush_block hbs ha hS ?_ hi, hc.clean e he hS hd i hi]
    intro f hf hfe
    obtain ⟨j, hj⟩ := List.getElem?_of_mem hf
    obtain rfl := hc.inj k j e f hk hj hS hfe.symm
    rw [hk] at hj
    rw [← Option.some.inj hj, hd]

/-- Replacing entry `k` by one for a block that no other entry holds. The device may change
where the old entry was dirty, which is what writing it back does. -/
theorem set (hc : Sound bs S dev dc) (hbs : bs ∣ 2 ^ 32) (ha : NoAlias bs S) {dev' : Buf}
    {k : ℕ} {e e' : CacheEntry} (hk : dc[k]? = some e) (hS : e'.dirty = true → S e'.blockNo)
    (huniq : S e'.blockNo → ∀ (j : ℕ) (f : CacheEntry), dc[j]? = some f → f.blockNo = e'.blockNo → j = k)
    (hdev : ∀ a, ¬ Covers bs a e → dev' a = dev a)
    (hclean : S e'.blockNo → e'.dirty = false → ∀ i < bs, e'.block i = dev' (blockOffset bs e'.blockNo + i)) :
    Sound bs S dev' (dc.set k e') := by
  refine ⟨?_, ?_, ?_⟩
  · intro i j f g hi hj hfS hfg
    have hlt := (List.getElem?_eq_some_iff.mp hk).1
    by_cases hik : k = i <;> by_cases hjk : k = j
    · omega
    · subst hik
      rw [List.getElem?_set_self hlt] at hi
      rw [List.getElem?_set_ne hjk] at hj
      obtain rfl := Option.some.inj hi
      exact (huniq hfS j g hj hfg.symm).symm
    · subst hjk
      rw [List.getElem?_set_self hlt] at hj
      rw [List.getElem?_set_ne hik] at hi
      obtain rfl := Option.some.inj hj
      exact huniq (hfg ▸ hfS) i f hi hfg
    · rw [List.getElem?_set_ne hik] at hi
      rw [List.getElem?_set_ne hjk] at hj
      exact hc.inj i j f g hi hj hfS hfg
  · intro f hf hfd
    rcases mem_set hk hf with rfl | ⟨j, -, hj⟩
    · exact hS hfd
    · exact hc.dirty f (mem_of_getElem? hj) hfd
  · intro f hf hfS hfd i hi
    rcases mem_set hk hf with rfl | ⟨j, hjk, hj⟩
    · exact hclean hfS hfd i hi
    · rw [hc.clean f (mem_of_getElem? hj) hfS hfd i hi, hdev]
      intro hcov
      have heS := hc.dirty e (mem_of_getElem? hk) hcov.1
      have hne : e.blockNo ≠ f.blockNo := fun h => hjk (hc.inj k j e f hk hj heS h).symm
      have hd := offsets_apart hbs (ha _ _ heS hfS hne)
      obtain ⟨-, h1, h2⟩ := hcov
      omega

/-- The synced device after entry `k` was replaced: only the bytes of a dirty new entry differ,
provided that the old entry's bytes are still there, in the new entry or on the device. -/
theorem flush_set (hc : Sound bs S dev dc) (hbs : bs ∣ 2 ^ 32) (ha : NoAlias bs S) {dev' : Buf}
    {k : ℕ} {e e' : CacheEntry} (hk : dc[k]? = some e) (hc' : Sound bs S dev' (dc.set k e'))
    (hdev : ∀ a, ¬ Covers bs a e → dev' a = dev a)
    (hold : ∀ a, Covers bs a e → ¬ Covers bs a e' → dev' a = e.block (a - blockOffset bs e.blockNo)) :
    flush bs dev' (dc.set k e') =
      if e'.dirty then (flush bs dev dc).blit (blockOffset bs e'.blockNo) e'.block bs else flush bs dev
        dc := by
  have hself : (dc.set k e')[k]? = some e' :=
    List.getElem?_set_self (List.getElem?_eq_some_iff.mp hk).1
  funext a
  by_cases hcov : Covers bs a e'
  · rw [flush_covered (hc'.pairwise hbs ha a) (mem_of_getElem? hself) hcov, if_pos hcov.1,
      blit_in hcov.2.1 hcov.2.2]
  have hrhs : (if e'.dirty then (flush bs dev dc).blit (blockOffset bs e'.blockNo) e'.block bs
      else flush bs dev dc) a = flush bs dev dc a := by
    split_ifs with hd
    · exact blit_out (by simp only [Covers, hd, true_and] at hcov; omega)
    · rfl
  rw [hrhs]
  by_cases hoth : ∃ j f, j ≠ k ∧ dc[j]? = some f ∧ Covers bs a f
  · obtain ⟨j, f, hjk, hj, hf⟩ := hoth
    have hj' : (dc.set k e')[j]? = some f := by rwa [List.getElem?_set_ne (Ne.symm hjk)]
    rw [flush_covered (hc.pairwise hbs ha a) (mem_of_getElem? hj) hf,
      flush_covered (hc'.pairwise hbs ha a) (mem_of_getElem? hj') hf]
  · push Not at hoth
    rw [flush_uncovered]
    · by_cases he : Covers bs a e
      · rw [hold a he hcov, flush_covered (hc.pairwise hbs ha a) (mem_of_getElem? hk) he]
      · rw [hdev a he, flush_uncovered]
        intro f hf hfc
        obtain ⟨j, hj⟩ := List.getElem?_of_mem hf
        by_cases hjk : j = k
        · subst hjk; rw [hk] at hj; exact he (Option.some.inj hj ▸ hfc)
        · exact hoth j f hjk hj hfc
    · intro f hf hfc
      obtain ⟨j, hj⟩ := List.getElem?_of_mem hf
      by_cases hjk : k = j
      · subst hjk; rw [hself] at hj; exact hcov (Option.some.inj hj ▸ hfc)
      · rw [List.getElem?_set_ne hjk] at hj
        exact hoth j f (Ne.symm hjk) hj hfc

end Sound

namespace Coherent

variable {bs : ℕ} {S T : ℕ → Prop} {dev : Buf} {dc : List CacheEntry}

theorem sound (hc : Coherent bs S dev dc) (hT : ∀ b, T b ↔ b ≠ 0 ∧ S b) : Sound bs T dev dc where
  inj i j e f hi hj heT hef := hc.inj i j e f hi hj ((hT _).mp heT).1 hef
  dirty e he hd := by
    have h0 : e.blockNo ≠ 0 := fun h => by simp [hc.empty e he h] at hd
    exact (hT _).mpr ⟨h0, hc.used e he h0⟩
  clean e he heT hd i hi := hc.clean e he ((hT _).mp heT).1 hd i hi

theorem of_sound (hc : Coherent bs S dev dc) (hT : ∀ b, T b ↔ b ≠ 0 ∧ S b) {dev' : Buf} {k : ℕ}
    {e e' : CacheEntry}
    (hk : dc[k]? = some e) (hs : Sound bs T dev' (dc.set k e')) (hS : T e'.blockNo)
    (hage : e'.lastUse < uint32Max) :
    Coherent bs S dev' (dc.set k e') := by
  have hused : ∀ f ∈ dc.set k e', f.blockNo ≠ 0 → S f.blockNo := by
    intro f hf h0
    rcases mem_set hk hf with rfl | ⟨j, -, hj⟩
    · exact ((hT _).mp hS).2
    · exact hc.used f (mem_of_getElem? hj) h0
  refine ⟨fun i j f g hi hj h0 hfg => ?_, hused, fun f hf h0 => ?_, fun f hf h0 hd => ?_, fun f hf => ?_⟩
  · exact hs.inj i j f g hi hj ((hT _).mpr ⟨h0, hused f (mem_of_getElem? hi) h0⟩) hfg
  · by_contra hd
    exact ((hT _).mp (hs.dirty f hf (Bool.eq_true_of_not_eq_false hd))).1 h0
  · exact hs.clean f hf ((hT _).mpr ⟨h0, hused f hf h0⟩) hd
  · rcases mem_set hk hf with rfl | ⟨j, -, hj⟩
    · exact hage
    · exact hc.age f (mem_of_getElem? hj)

end Coherent

section Scan

theorem cacheScan_hit {b k : ℕ} {dc : List CacheEntry} {i : ℕ} {o : Option ℕ} {age : ℕ}
    (h : Fs.cacheScan b dc i o age = .inl k) :
    i ≤ k ∧ ∃ e : CacheEntry, dc[k - i]? = some e ∧ e.blockNo = b := by
  induction dc generalizing i o age with
  | nil => simp [Fs.cacheScan] at h
  | cons f fs ih =>
    unfold Fs.cacheScan at h
    split_ifs at h with hf hage
    · obtain rfl : i = k := by simpa using h
      exact ⟨le_rfl, f, by simp, hf⟩
    all_goals
      obtain ⟨h1, e, he, heb⟩ := ih h
      refine ⟨by omega, e, ?_, heb⟩
      rw [show k - i = k - (i + 1) + 1 by omega, List.getElem?_cons_succ]
      exact he

theorem cacheScan_miss {b : ℕ} {dc : List CacheEntry} {i : ℕ} {o r : Option ℕ} {age : ℕ}
    (h : Fs.cacheScan b dc i o age = .inr r) :
    (∀ e ∈ dc, e.blockNo ≠ b) ∧ (∀ k, r = some k → o = some k ∨ i ≤ k ∧ k < i + dc.length) ∧
      (r = none → o = none ∧ ∀ e ∈ dc, age ≤ e.lastUse) := by
  induction dc generalizing i o age with
  | nil =>
    obtain rfl : o = r := by simpa [Fs.cacheScan] using h
    exact ⟨by simp, fun k hk => .inl hk, fun hr => ⟨hr, by simp⟩⟩
  | cons f fs ih =>
    unfold Fs.cacheScan at h
    split_ifs at h with hf hage
    all_goals
      obtain ⟨h1, h2, h3⟩ := ih h
      refine ⟨?_, ?_, ?_⟩
      · intro e he
        rcases mem_cons.mp he with rfl | he
        · exact hf
        · exact h1 e he
      · intro k hk
        rcases h2 k hk with hk | hk
        · simp_all
        · simp only [length_cons]; omega
      · intro hr
        obtain ⟨h4, h5⟩ := h3 hr
        simp_all

end Scan

end ChiffOS.Ext2
