import ChiffOS.Elf.Exec

/-! Which pages a program has when its segments are copied. The loop over a segment steps by pages from its
first byte, not from its first page: the page of the last byte is left out if the segment crosses one more
boundary than its size says. -/

namespace ChiffOS.Mem.Mmu

/-- The table is kept for a new program: it is the kernel's, or marked. -/
def Stays (s : Mmu) (dir i : ℕ) : Prop := (s.dirs dir).tables i = 0xFFFFFFFF ∨ s.Kernel dir i

/-- The tables of a directory are different memory, and the heap has other memory to give. -/
structure Ready (s : Mmu) (dir : ℕ) : Prop where
  distinct : ∀ i < 1024, ∀ j < 1024, (s.dirs dir).tables i ≠ 0 → (s.dirs dir).tables i =
    (s.dirs dir).tables j → i = j
  inj : ∀ m n, s.calls ≤ m → s.calls ≤ n → (s.heap m).1 = (s.heap n).1 → m = n
  ne_zero : ∀ n, s.calls ≤ n → (s.heap n).1 ≠ 0
  fresh : ∀ n, s.calls ≤ n → ∀ i < 1024, (s.dirs dir).tables i ≠ (s.heap n).1

/-- The same before a program is loaded; the heap may give the memory of tables that go. -/
structure Loadable (s : Mmu) (dir : ℕ) : Prop where
  distinct : ∀ i < 1024, ∀ j < 1024, (s.dirs dir).tables i ≠ 0 → (s.dirs dir).tables i =
    (s.dirs dir).tables j → i = j
  inj : ∀ m n, s.calls ≤ m → s.calls ≤ n → (s.heap m).1 = (s.heap n).1 → m = n
  ne_zero : ∀ n, s.calls ≤ n → (s.heap n).1 ≠ 0
  fresh : ∀ n, s.calls ≤ n → ∀ i < 1024, s.Stays dir i → (s.dirs dir).tables i ≠ (s.heap n).1

def Kept (s : Mmu) (dir n : ℕ) : Prop := s.Stays dir (n / 1024) ∧ s.Present dir n

variable {s s' : Mmu} {dir n : ℕ}

/-! ### The tables of the old program -/

theorem releasePages_other (table : ℕ) (js : List ℕ) : ∀ s : Mmu,
    (∀ t ≠ table, (js.foldl (releasePage table) s).tables t = s.tables t) ∧
    (js.foldl (releasePage table) s).dirs = s.dirs ∧ (js.foldl (releasePage table) s).kernelDirectory =
      s.kernelDirectory ∧
      (js.foldl (releasePage table) s).heap = s.heap ∧ (js.foldl (releasePage table) s).calls = s.calls := by
  induction js with
  | nil =>
    intro s
    exact ⟨fun _ _ => rfl, rfl, rfl, rfl, rfl⟩
  | cons j js ih =>
    intro s
    obtain ⟨h1, h2, h3, h4, h5⟩ := ih (releasePage table s j)
    rw [List.foldl_cons]
    unfold releasePage at h1 h2 h3 h4 h5 ⊢
    split_ifs at h1 h2 h3 h4 h5 ⊢ with hf
    · refine ⟨?_, h2, h3, h4, h5⟩
      intro t ht
      exact (h1 t ht).trans (Function.update_of_ne ht _ _)
    · exact ⟨h1, h2, h3, h4, h5⟩

/-- Tables that do not stay are gone, as far as the loop has come. -/
structure Released (s : Mmu) (dir : ℕ) (is : List ℕ) (s' : Mmu) : Prop where
  gone : ∀ i ∈ is, ¬ s.Stays dir i → (s'.dirs dir).tables i = 0
  kept : ∀ i, i ∉ is ∨ s.Stays dir i → (s'.dirs dir).tables i = (s.dirs dir).tables i
  kernel : ∀ i, (s'.dirs s.kernelDirectory).tables i = (s.dirs s.kernelDirectory).tables i
  pages : ∀ i < 1024, s.Stays dir i → (s.dirs dir).tables i ≠ 0 → s'.tables ((s.dirs dir).tables i) =
    s.tables ((s.dirs dir).tables i)
  kernelDirectory : s'.kernelDirectory = s.kernelDirectory
  heap : s'.heap = s.heap
  calls : s'.calls = s.calls

theorem Released.step {is : List ℕ} (h : Released s dir is s') (hl : Loadable s dir) {i : ℕ} (hi : i ∉ is)
    (hlt : i < 1024) :
    Released s dir (is ++ [i]) (releaseTableForExec dir s' i) := by
  have htab : (s'.dirs dir).tables i = (s.dirs dir).tables i := h.kept i (.inl hi)
  have hker : (s'.dirs s'.kernelDirectory).tables i = (s.dirs s.kernelDirectory).tables i := by
    rw [h.kernelDirectory]
    exact h.kernel i
  -- a table that stays, or none
  have hsame : s.Stays dir i ∨ (s.dirs dir).tables i = 0 → Released s dir (is ++ [i]) s' := by
    intro hstay
    refine ⟨?_, ?_, h.kernel, h.pages, h.kernelDirectory, h.heap, h.calls⟩
    · intro j hj hno
      rcases List.mem_append.mp hj with hj | hj
      · exact h.gone j hj hno
      · obtain rfl := List.mem_singleton.mp hj
        rw [htab]
        exact hstay.resolve_left hno
    · intro j hj
      apply h.kept
      rcases hj with hj | hj
      · exact .inl fun hm => hj (List.mem_append_left _ hm)
      · exact .inr hj
  unfold releaseTableForExec
  simp only [htab, hker]
  split_ifs with hz hk hb
  · rcases hz with hz | hz
    · exact hsame (.inr hz)
    · exact hsame (.inl (.inl hz))
  · have hno : ¬ s.Stays dir i := fun hs => hs.elim (fun he => hz (.inr he)) hk
    obtain ⟨h1, h2, h3, h4, h5⟩ := releasePages_other ((s.dirs dir).tables i) (List.range 1024) s'
    obtain ⟨s₁, hs₁⟩ : ∃ s₁, (List.range 1024).foldl (releasePage ((s.dirs dir).tables i)) s' = s₁ := ⟨_, rfl⟩
    rw [hs₁] at h1 h2 h3 h4 h5 ⊢
    have hdk : s.kernelDirectory ≠ dir := by
      rintro rfl
      exact hk rfl
    have hother : ∀ j, j ≠ i → ((s₁.setTable dir i 0 0).dirs dir).tables j = (s'.dirs dir).tables j := by
      intro j hj
      simp [setTable, hj, h2]
    refine ⟨?_, ?_, ?_, ?_, h3.trans h.kernelDirectory, h4.trans h.heap, h5.trans h.calls⟩
    · intro j hj hnj
      by_cases hji : j = i
      · subst hji
        simp [setTable]
      · rw [hother j hji]
        exact h.gone j ((List.mem_append.mp hj).resolve_right fun hm => hji (List.mem_singleton.mp hm)) hnj
    · intro j hj
      have hji : j ≠ i := by
        rintro rfl
        rcases hj with hj | hj
        · exact hj (List.mem_append_right _ (List.mem_singleton_self _))
        · exact hno hj
      rw [hother j hji]
      apply h.kept
      rcases hj with hj | hj
      · exact .inl fun hm => hj (List.mem_append_left _ hm)
      · exact .inr hj
    · intro j
      have hd : (s₁.setTable dir i 0 0).dirs s.kernelDirectory = s'.dirs s.kernelDirectory := by
        rw [← h2]
        exact Function.update_of_ne hdk _ _
      rw [hd]
      exact h.kernel j
    · intro j hj hs hne
      have hji : (s.dirs dir).tables j ≠ (s.dirs dir).tables i := by
        intro he
        obtain rfl := hl.distinct j hj i hlt hne he
        exact hno hs
      exact (h1 _ hji).trans (h.pages j hj hs hne)
  · exact absurd (show i * 0x10 * 1024 % 2 ^ 32 < execStackBottom by unfold execStackBottom; omega) hb
  · exact hsame (.inl (.inr (not_not.mp hk)))

theorem releaseTables_released (hl : Loadable s dir) (m : ℕ) (hm : m ≤ 1024) :
    Released s dir (List.range m) ((List.range m).foldl (releaseTableForExec dir) s) := by
  induction m with
  | zero => exact ⟨fun i hi => absurd hi List.not_mem_nil, fun _ _ => rfl, fun _ => rfl, fun _ _ _ _ => rfl,
    rfl, rfl, rfl⟩
  | succ m ih =>
    rw [List.range_succ, List.foldl_append]
    exact (ih (by omega)).step hl List.not_mem_range_self (by omega)

theorem releaseDirectoryForExec_ready (hl : Loadable s dir) : Ready (s.releaseDirectoryForExec dir) dir ∧
    ∀ n < 2 ^ 20, (s.releaseDirectoryForExec dir).Present dir n ↔ s.Kept dir n := by
  obtain ⟨s', hs'⟩ : ∃ s', s.releaseDirectoryForExec dir = s' := ⟨_, rfl⟩
  have h : Released s dir (List.range 1024) s' := by
    rw [← hs', releaseDirectoryForExec]
    exact releaseTables_released hl 1024 le_rfl
  rw [hs']
  have htab : ∀ i < 1024, ((s'.dirs dir).tables i = 0 ∧ ¬ s.Stays dir i) ∨
      ((s'.dirs dir).tables i = (s.dirs dir).tables i ∧ s.Stays dir i) := by
    intro i hi
    by_cases hs : s.Stays dir i
    · exact .inr ⟨h.kept i (.inr hs), hs⟩
    · exact .inl ⟨h.gone i (List.mem_range.mpr hi) hs, hs⟩
  refine ⟨⟨?_, ?_, ?_, ?_⟩, ?_⟩
  · intro i hi j hj hne he
    rcases htab i hi with ⟨h0, -⟩ | ⟨h1, -⟩
    · exact absurd h0 hne
    rcases htab j hj with ⟨h0, -⟩ | ⟨h2, -⟩
    · exact absurd (he.trans h0) hne
    · rw [h1] at hne he
      rw [h2] at he
      exact hl.distinct i hi j hj hne he
  · rw [h.heap, h.calls]
    exact hl.inj
  · rw [h.heap, h.calls]
    exact hl.ne_zero
  · rw [h.heap, h.calls]
    intro n hn i hi
    rcases htab i hi with ⟨h0, -⟩ | ⟨h1, hs⟩
    · rw [h0]
      exact (hl.ne_zero n hn).symm
    · rw [h1]
      exact hl.fresh n hn i hi hs
  · intro n hn
    have hi : n / 1024 < 1024 := by omega
    rcases htab (n / 1024) hi with ⟨h0, hs⟩ | ⟨h1, hs⟩
    · exact ⟨fun hp => absurd h0 hp.1, fun hk => absurd hk.1 hs⟩
    · have hpage : (s.dirs dir).tables (n / 1024) ≠ 0 →
          s'.page dir (n / 1024, n % 1024) = s.page dir (n / 1024, n % 1024) := by
        intro hne
        rw [page, page, h1, h.pages _ hi hs hne]
      constructor
      · rintro ⟨hne, hp⟩
        rw [h1] at hne
        rw [hpage hne] at hp
        exact ⟨hs, hne, hp⟩
      · rintro ⟨-, hne, hp⟩
        refine ⟨by rwa [h1], ?_⟩
        rwa [hpage hne]

/-! ### Pages of the new one -/

theorem getPage_ready (h : Ready s dir) {address : ℕ} (ha : address < 2 ^ 32) : ∃ t s₁,
    s.getPage address true dir = (some (t, address / 0x1000 % 1024), s₁) ∧ t ≠ 0 ∧
      (s₁.dirs dir).tables (address / 0x1000 / 1024) = t ∧ Ready s₁ dir ∧ ∀ n < 2 ^ 20, s₁.Present dir n ↔
        s.Present dir n := by
  have hidx : address / 0x1000 / 1024 < 1024 := by omega
  by_cases hz : (s.dirs dir).tables (address / 0x1000 / 1024) = 0
  · have hget : s.getPage address true dir = (some ((s.heap s.calls).1, address / 0x1000 % 1024), { s with
        calls := s.calls + 1
        tables := Function.update s.tables (s.heap s.calls).1 fun _ => Page.zero }.setTable dir
          (address / 0x1000 / 1024)
          (s.heap s.calls).1 ((s.heap s.calls).2 ||| 0x7)) := by
      simp only [getPage, hz, ne_eq, not_true_eq_false, if_false, if_true, kvmallocP]
    obtain ⟨s₁, hs₁⟩ : ∃ s₁ : Mmu, ({ s with
        calls := s.calls + 1
        tables := Function.update s.tables (s.heap s.calls).1 fun _ => Page.zero } : Mmu).setTable dir
          (address / 0x1000 / 1024)
          (s.heap s.calls).1 ((s.heap s.calls).2 ||| 0x7) = s₁ := ⟨_, rfl⟩
    rw [hs₁] at hget
    have hnew : (s₁.dirs dir).tables (address / 0x1000 / 1024) = (s.heap s.calls).1 := by
      rw [← hs₁]
      simp [setTable]
    have hother : ∀ i, i ≠ address / 0x1000 / 1024 → (s₁.dirs dir).tables i = (s.dirs dir).tables i := by
      intro i hi
      rw [← hs₁]
      simp [setTable, hi]
    have htables : s₁.tables = Function.update s.tables (s.heap s.calls).1 fun _ =>
      Page.zero := by rw [← hs₁]; rfl
    have hheap : s₁.heap = s.heap := by rw [← hs₁]; rfl
    have hcalls : s₁.calls = s.calls + 1 := by rw [← hs₁]; rfl
    have hfresh := h.fresh s.calls le_rfl
    refine ⟨_, s₁, hget, h.ne_zero _ le_rfl, hnew, ⟨?_, ?_, ?_, ?_⟩, ?_⟩
    · intro i hi j hj hne he
      by_cases h1 : i = address / 0x1000 / 1024
      · by_cases h2 : j = address / 0x1000 / 1024
        · exact h1.trans h2.symm
        · rw [h1, hnew, hother j h2] at he
          exact absurd he.symm (hfresh j hj)
      · by_cases h2 : j = address / 0x1000 / 1024
        · rw [h2, hnew, hother i h1] at he
          exact absurd he (hfresh i hi)
        · rw [hother i h1] at hne he
          rw [hother j h2] at he
          exact h.distinct i hi j hj hne he
    · rw [hheap, hcalls]
      intro m n hm hn
      exact h.inj m n (by omega) (by omega)
    · rw [hheap, hcalls]
      intro n hn
      exact h.ne_zero n (by omega)
    · rw [hheap, hcalls]
      intro n hn i hi
      by_cases h1 : i = address / 0x1000 / 1024
      · rw [h1, hnew]
        intro he
        have := h.inj _ _ le_rfl (by omega) he
        omega
      · rw [hother i h1]
        exact h.fresh n (by omega) i hi
    · intro n hn
      have hni : n / 1024 < 1024 := by omega
      unfold Present
      by_cases h1 : n / 1024 = address / 0x1000 / 1024
      · -- the pages of the new table are not present
        rw [page, h1, hnew, hz, htables, Function.update_self]
        simp [Page.zero]
      · rw [page, page, hother _ h1, htables, Function.update_of_ne (hfresh _ hni)]
  · have hget : s.getPage address true dir =
      (some ((s.dirs dir).tables (address / 0x1000 / 1024), address / 0x1000 % 1024), s) := by
      simp only [getPage, ne_eq, hz, not_false_eq_true, if_true]
    exact ⟨_, s, hget, hz, rfl, h, fun n _ => Iff.rfl⟩

theorem setPage_ready (h : Ready s dir) (t j : ℕ) (q : Page) : Ready (s.setPage t j q) dir :=
    ⟨h.distinct, h.inj, h.ne_zero, h.fresh⟩

theorem allocPage_ready (h : Ready s dir) {address : ℕ} (ha : address < 2 ^ 32) : Ready
    (s.allocPage dir address) dir ∧
    ∀ n < 2 ^ 20, (s.allocPage dir address).Present dir n ↔ s.Present dir n ∨ n = address / 0x1000 := by
  obtain ⟨t, s₁, hget, ht, htab, h₁, hsame⟩ := getPage_ready h ha
  have hpresent : (s₁.map.allocFrame (s₁.tables t (address / 0x1000 % 1024)) 0 1).1.present = true := by
    by_cases hf : (s₁.tables t (address / 0x1000 % 1024)).frame = 0
    · simp [Frames.allocFrame, hf]
    · simp [Frames.allocFrame, hf]
  have hrun : s.allocPage dir address = { s₁.setPage t (address / 0x1000 % 1024)
      (s₁.map.allocFrame (s₁.tables t (address / 0x1000 % 1024)) 0 1).1 with
        map := (s₁.map.allocFrame (s₁.tables t (address / 0x1000 % 1024)) 0 1).2 } := by
    rw [allocPage, hget]
  have h₂ := setPage_ready h₁ t (address / 0x1000 % 1024)
    (s₁.map.allocFrame (s₁.tables t (address / 0x1000 % 1024)) 0 1).1
  rw [hrun]
  refine ⟨⟨h₂.distinct, h₂.inj, h₂.ne_zero, h₂.fresh⟩, ?_⟩
  intro n hn
  rw [← hsame n hn]
  have hni : n / 1024 < 1024 := by omega
  unfold Present
  simp only [page, setPage]
  by_cases hi : n / 1024 = address / 0x1000 / 1024
  · rw [hi, htab, Function.update_self]
    by_cases hj : n % 1024 = address / 0x1000 % 1024
    · have hna : n = address / 0x1000 := by omega
      rw [hj, Function.update_self]
      exact ⟨fun _ => .inr hna, fun _ => ⟨ht, hpresent⟩⟩
    · have hna : n ≠ address / 0x1000 := fun he => hj (by rw [he])
      rw [Function.update_of_ne hj]
      simp only [hna, or_false]
  · have hna : n ≠ address / 0x1000 := fun he => hi (by rw [he])
    simp only [hna, or_false]
    apply and_congr_right
    intro hne
    have htn : (s₁.dirs dir).tables (n / 1024) ≠ t := by
      intro he
      exact hi (h₁.distinct _ hni _ (by omega) hne (he.trans htab.symm))
    rw [Function.update_of_ne htn]

/-- The loop over pages ends, unless the last address it can reach is before the end. -/
theorem allocRange_ready (stop : ℕ) (r : ℕ) : ∀ {s : Mmu} {i fuel : ℕ}, Ready s dir → i < 2 ^ 32 →
    stop ≤ 0xFFFFF000 + i % 0x1000 →
    stop ≤ i + 0x1000 * r → r < fuel → ∃ s', s.allocRange dir stop fuel i = some s' ∧ Ready s' dir ∧
      ∀ n < 2 ^ 20, s'.Present dir n ↔ s.Present dir n ∨ ∃ k, i + 0x1000 * k < stop ∧ n = i / 0x1000 + k := by
  induction r with
  | zero =>
    intro s i fuel h _ _ hr hf
    cases fuel with
    | zero => exact absurd hf (Nat.not_lt_zero _)
    | succ fuel =>
      have hge : ¬ i < stop := by omega
      refine ⟨s, by rw [allocRange, if_neg hge], h, ?_⟩
      intro n _
      refine ⟨.inl, ?_⟩
      rintro (hp | ⟨k, hk, -⟩)
      · exact hp
      · omega
  | succ r ih =>
    intro s i fuel h hi hend hr hf
    cases fuel with
    | zero => exact absurd hf (Nat.not_lt_zero _)
    | succ fuel =>
      by_cases hlt : i < stop
      · have hmod : (i + 0x1000) % 2 ^ 32 = i + 0x1000 := Nat.mod_eq_of_lt (by omega)
        obtain ⟨h₁, hp₁⟩ := allocPage_ready h hi
        obtain ⟨s', hrun, h', hp'⟩ := ih (i := i + 0x1000) h₁ (by omega) (by omega) (by omega)
          (Nat.lt_of_succ_lt_succ hf)
        refine ⟨s', ?_, h', ?_⟩
        · rw [allocRange, if_pos hlt, hmod, hrun]
        · intro n hn
          rw [hp' n hn, hp₁ n hn, or_assoc]
          apply or_congr_right
          constructor
          · rintro (rfl | ⟨k, hk, rfl⟩)
            · exact ⟨0, by omega, rfl⟩
            · exact ⟨k + 1, by omega, by omega⟩
          · rintro ⟨k, hk, rfl⟩
            cases k with
            | zero => exact .inl rfl
            | succ k => exact .inr ⟨k, by omega, by omega⟩
      · refine ⟨s, by rw [allocRange, if_neg hlt], h, ?_⟩
        intro n _
        refine ⟨.inl, ?_⟩
        rintro (hp | ⟨k, hk, -⟩)
        · exact hp
        · omega

theorem allocRange_endless (stop fuel : ℕ) : ∀ {s : Mmu} {i : ℕ}, i < 2 ^ 32 →
    0xFFFFF000 + i % 0x1000 < stop →
    s.allocRange dir stop fuel i = none := by
  induction fuel with
  | zero =>
    intro s i _ _
    rfl
  | succ fuel ih =>
    intro s i hi hstop
    rw [allocRange, if_pos (by omega)]
    exact ih (Nat.mod_lt _ (by decide)) (by omega)

/-! ### Stores -/

theorem store_eq (s : Mmu) (dir address : ℕ) (b : UInt8) :
    (s.store dir address b = none ∧ ¬ s.Present dir (address / 0x1000)) ∨
      ∃ memory, s.store dir address b = some { s with memory := memory } ∧
        s.Present dir (address / 0x1000) := by
  unfold store
  by_cases hp : s.Present dir (address / 0x1000)
  · exact .inr ⟨_, if_pos hp, hp⟩
  · exact .inl ⟨if_neg hp, hp⟩

theorem storeBytes_spec (dir : ℕ) (bs : List UInt8) : ∀ (s : Mmu) (address : ℕ), address < 2 ^ 32 →
    ((∀ i < bs.length, s.Present dir ((address + i) % 2 ^ 32 / 0x1000)) ∧
      ∃ memory, s.storeBytes dir address bs = some { s with memory := memory }) ∨
    ((¬ ∀ i < bs.length, s.Present dir ((address + i) % 2 ^ 32 / 0x1000)) ∧ s.storeBytes dir address bs =
      none) := by
  induction bs with
  | nil =>
    intro s address _
    exact .inl ⟨fun i hi => absurd hi (Nat.not_lt_zero i), s.memory, rfl⟩
  | cons b bs ih =>
    intro s address ha
    have hmod : address % 2 ^ 32 = address := Nat.mod_eq_of_lt ha
    rcases s.store_eq dir address b with ⟨hnone, hno⟩ | ⟨memory, hsome, hp⟩
    · refine .inr ⟨?_, by rw [storeBytes, hnone]; rfl⟩
      intro hall
      have h0 := hall 0 (Nat.succ_pos _)
      rw [Nat.add_zero, hmod] at h0
      exact hno h0
    · have hshift : ∀ i, ((address + 1) % 2 ^ 32 + i) % 2 ^ 32 = (address + (i + 1)) % 2 ^ 32 := by
        intro i
        omega
      have hiff : (∀ i < bs.length, s.Present dir (((address + 1) % 2 ^ 32 + i) % 2 ^ 32 / 0x1000)) ↔
          ∀ i < (b :: bs).length, s.Present dir ((address + i) % 2 ^ 32 / 0x1000) := by
        constructor
        · intro hall i hi
          cases i with
          | zero => rwa [Nat.add_zero, hmod]
          | succ i =>
            rw [← hshift]
            exact hall i (Nat.lt_of_succ_lt_succ hi)
        · intro hall i hi
          rw [hshift]
          exact hall (i + 1) (Nat.succ_lt_succ hi)
      have hrun : s.storeBytes dir address (b :: bs) = ({ s with memory := memory } : Mmu).storeBytes dir
        ((address + 1) % 2 ^ 32) bs := by
        rw [storeBytes, hsome]
        rfl
      rw [hrun, ← hiff]
      exact ih { s with memory := memory } ((address + 1) % 2 ^ 32) (Nat.mod_lt _ (by decide))

end ChiffOS.Mem.Mmu

namespace ChiffOS.Elf

open Mem

namespace Phdr

/-- The loop over the pages of the segment ends. -/
def Ends (ph : Phdr) : Prop := ph.pVaddr + ph.pMemsz ≤ 0xFFFFF000 + ph.pVaddr % 0x1000

def Hits (ph : Phdr) (n : ℕ) : Prop := ∃ k, 0x1000 * k < ph.pMemsz ∧ n = ph.pVaddr / 0x1000 + k

/-- The loop comes to the page of the last byte, or that page was there before. -/
def LastCovered (ph : Phdr) (there : ℕ → Prop) : Prop :=
  ph.pMemsz = 0 ∨ ph.pVaddr % 0x1000 + (ph.pMemsz - 1) % 0x1000 < 0x1000 ∨
    there ((ph.pVaddr + ph.pMemsz - 1) / 0x1000)

/-- The copy from the file has an end, and the pages for its bytes are there. -/
def Fits (file : RawFile) (ph : Phdr) (there : ℕ → Prop) : Prop := ∃ r ∈ file.read ph.pOffset ph.pFilesz,
  ∀ i < r.2.length, there ((inFront ph.pVaddr r.1 + i) % 2 ^ 32 / 0x1000)

end Phdr

/-- For the segments one after another, as far as the loader comes: the page of the last byte is covered. -/
def AllCovered (file : RawFile) (there : ℕ → Prop) : List Phdr → Prop
  | [] => True
  | ph :: phs =>
    if ph.pType = ptLoad then
      ph.Ends → ph.LastCovered there ∧
        (ph.Fits file (fun n => there n ∨ ph.Hits n) → AllCovered file (fun n => there n ∨ ph.Hits n) phs)
    else AllCovered file there phs

def SegmentMapped (dir : ℕ) (ph : Phdr) (s : Mmu) : Prop :=
  ∀ a, ph.pVaddr ≤ a → a < ph.pVaddr + ph.pMemsz → s.Present dir (a / 0x1000)

/-- The segments that a call copies, each with the memory at that time; those of an interpreter are of
another call. -/
def execCopies (file : ElfFile) (dir : ℕ) (s : Mmu) : List (Phdr × Mmu) :=
  if ¬ file.Magic then []
  else if file.Dynamic then []
  else (loadSegments file.toRawFile dir file.phdrs (s.releaseDirectoryForExec dir)).1

variable {file : RawFile} {dir : ℕ} {s : Mmu} {ph : Phdr} {there : ℕ → Prop}

theorem segmentMapped_iff (hsize : ph.pVaddr + ph.pMemsz < 2 ^ 32)
    (h : ∀ n < 2 ^ 20, s.Present dir n ↔ there n ∨ ph.Hits n) :
    SegmentMapped dir ph s ↔ ph.LastCovered there := by
  constructor
  · intro hm
    by_cases h0 : ph.pMemsz = 0
    · exact .inl h0
    · right
      have hlast := hm (ph.pVaddr + ph.pMemsz - 1) (by omega) (by omega)
      rcases (h _ (by omega)).mp hlast with hp | ⟨k, hk, he⟩
      · exact .inr hp
      · left
        omega
  · intro hc a h1 h2
    rw [h _ (by omega)]
    by_cases hhit : 0x1000 * (a / 0x1000 - ph.pVaddr / 0x1000) < ph.pMemsz
    · exact .inr ⟨_, hhit, by omega⟩
    · -- a page behind those of the loop is the last one
      rcases hc with hc | hc | hc
      · omega
      · omega
      · left
        have hlast : a / 0x1000 = (ph.pVaddr + ph.pMemsz - 1) / 0x1000 := by omega
        rwa [hlast]

theorem inFront_lt (address before : ℕ) : inFront address before < 2 ^ 32 := by
  unfold inFront
  omega

theorem storeBytes_zeros (hsize : ph.pVaddr + ph.pMemsz < 2 ^ 32) (hm : SegmentMapped dir ph s) :
    ∃ memory, s.storeBytes dir ((ph.pVaddr + ph.pFilesz) % 2 ^ 32)
      (List.replicate (ph.pMemsz - ph.pFilesz) 0) =
      some { s with memory := memory } := by
  rcases Mmu.storeBytes_spec dir (List.replicate (ph.pMemsz - ph.pFilesz) 0) s
    ((ph.pVaddr + ph.pFilesz) % 2 ^ 32)
    (Nat.mod_lt _ (by decide)) with ⟨-, hrun⟩ | ⟨hno, -⟩
  · exact hrun
  · refine absurd (fun i hi => ?_) hno
    rw [List.length_replicate] at hi
    have ha : ((ph.pVaddr + ph.pFilesz) % 2 ^ 32 + i) % 2 ^ 32 = ph.pVaddr + ph.pFilesz + i := by omega
    rw [ha]
    exact hm _ (by omega) (by omega)

theorem copySegment_spec (file : RawFile) (hsize : ph.pVaddr + ph.pMemsz < 2 ^ 32)
    (h : ∀ n < 2 ^ 20, s.Present dir n ↔ there n)
    (hm : SegmentMapped dir ph s) : (ph.Fits file there ∧ ∃ memory, copySegment file dir ph s =
      some { s with memory := memory }) ∨
      (¬ ph.Fits file there ∧ copySegment file dir ph s = none) := by
  unfold Phdr.Fits copySegment
  cases hread : file.read ph.pOffset ph.pFilesz with
  | none => exact .inr ⟨by simp, rfl⟩
  | some r =>
    have hfits : (∃ r' ∈ some r, ∀ i < r'.2.length, there ((inFront ph.pVaddr r'.1 + i) % 2 ^ 32 / 0x1000)) ↔
        ∀ i < r.2.length, s.Present dir ((inFront ph.pVaddr r.1 + i) % 2 ^ 32 / 0x1000) := by
      simp only [Option.mem_def, Option.some.injEq, exists_eq_left']
      apply forall₂_congr
      intro i _
      rw [h _ (by omega)]
    rw [hfits, Option.bind_eq_bind, Option.bind_some]
    dsimp only
    rcases Mmu.storeBytes_spec dir r.2 s (inFront ph.pVaddr r.1) (inFront_lt _ _) with ⟨hall, memory,
      hrun⟩ | ⟨hno, hrun⟩
    · obtain ⟨memory', hzeros⟩ := storeBytes_zeros (s := { s with memory := memory }) hsize hm
      exact .inl ⟨hall, memory', by rw [hrun, Option.bind_eq_bind, Option.bind_some, hzeros]⟩
    · exact .inr ⟨hno, by rw [hrun]; rfl⟩

theorem loadSegments_mapped_iff (phs : List Phdr) : ∀ (s : Mmu) (there : ℕ → Prop), s.Ready dir →
    (∀ n < 2 ^ 20, s.Present dir n ↔ there n) →
    (∀ ph ∈ phs, ph.pType = ptLoad → ph.pVaddr + ph.pMemsz < 2 ^ 32) →
    ((∀ c ∈ (loadSegments file dir phs s).1, SegmentMapped dir c.1 c.2) ↔ AllCovered file there phs) := by
  induction phs with
  | nil =>
    intro s there _ _ _
    exact ⟨fun _ => trivial, fun _ c hc => absurd hc List.not_mem_nil⟩
  | cons ph phs ih =>
    intro s there hs hthere hsize
    obtain ⟨hsize₁, hsize⟩ := List.forall_mem_cons.mp hsize
    by_cases ht : ph.pType = ptLoad
    · have hlt := hsize₁ ht
      have hmod : (ph.pVaddr + ph.pMemsz) % 2 ^ 32 = ph.pVaddr + ph.pMemsz := Nat.mod_eq_of_lt hlt
      simp only [loadSegments, AllCovered, if_pos ht, hmod]
      by_cases he : ph.Ends
      · have hv : ph.pVaddr < 2 ^ 32 := by omega
        obtain ⟨s₁, hrun, hs₁, hp₁⟩ := Mmu.allocRange_ready (ph.pVaddr + ph.pMemsz) (2 ^ 20) hs hv he
          (show _ ≤ ph.pVaddr + _ by omega)
          (show 2 ^ 20 < rounds by decide)
        have hthere₁ : ∀ n < 2 ^ 20, s₁.Present dir n ↔ there n ∨ ph.Hits n := by
          intro n hn
          rw [hp₁ n hn, hthere n hn]
          apply or_congr_right
          apply exists_congr
          intro k
          rw [Nat.add_lt_add_iff_left]
        have hmapped := segmentMapped_iff hlt hthere₁
        simp only [hrun, he, true_implies]
        by_cases hlast : ph.LastCovered there
        · rcases copySegment_spec file hlt hthere₁ (hmapped.mpr hlast) with ⟨hfits, memory, hcopy⟩ | ⟨hno,
            hcopy⟩
          · have hs₂ : Mmu.Ready { s₁ with memory := memory } dir :=
              ⟨hs₁.distinct, hs₁.inj, hs₁.ne_zero, hs₁.fresh⟩
            have hrest := ih { s₁ with memory := memory } (fun n => there n ∨ ph.Hits n) hs₂ hthere₁ hsize
            simp only [hcopy, List.forall_mem_cons, hmapped, hlast, true_and, hfits, true_implies]
            exact hrest
          · simp only [hcopy, List.forall_mem_cons, hmapped, hlast, true_and, hno, false_implies, iff_true]
            exact fun c hc => absurd hc List.not_mem_nil
        · -- the first copy is of a segment that is not mapped
          cases copySegment file dir ph s₁ with
          | none => simp only [List.forall_mem_cons, hmapped, hlast, false_and]
          | some s' => simp only [List.forall_mem_cons, hmapped, hlast, false_and]
      · have hrun : s.allocRange dir (ph.pVaddr + ph.pMemsz) rounds ph.pVaddr = none := by
          apply Mmu.allocRange_endless
          · omega
          · exact Nat.lt_of_not_le he
        simp only [hrun, he, false_implies, iff_true]
        exact fun c hc => absurd hc List.not_mem_nil
    · simp only [loadSegments, AllCovered, if_neg ht]
      exact ih s there hs hthere hsize

theorem emptyMmu_loadable : emptyMmu.Loadable 2 where
  distinct i _ j _ hne := absurd rfl hne
  inj m n _ _ he := by simpa [emptyMmu] using he
  ne_zero n _ := by simp [emptyMmu]
  fresh n _ i _ _ := by
    show 0 ≠ 100 + n
    omega

end ChiffOS.Elf
