import ChiffOS.Elf.Ends

/-! The block of arguments that `exec_elf` builds from address 0 on, and the pages that have a frame when a
byte of it is written. One page is mapped for the pointers, and pages for the strings behind them as the
strings are copied. A pointer array of three pages has one between them that is left out. -/

namespace ChiffOS.Elf

open Mem

/-! ### Pages that were given a frame -/

def Block.Allocs : Block → ℕ → Prop
  | .page address, q => q = address / 0x1000
  | .range start stop, q => ∃ k, start + 0x1000 * k < stop ∧ q = start / 0x1000 + k
  | .bytes _ _, _ => False
  | .endless, _ => False

def Allocs (blocks : List Block) (q : ℕ) : Prop := ∃ b ∈ blocks, b.Allocs q

/-- Every byte is written to a page that was given a frame before; `given` are the pages of earlier blocks. -/
def GivenBefore : (given : ℕ → Prop) → List Block → Prop
  | _, [] => True
  | given, b :: blocks =>
    (∀ address bs, b = .bytes address bs → ∀ i < bs.length, given ((address + i) % 2 ^ 32 / 0x1000)) ∧
    GivenBefore (fun q => given q ∨ b.Allocs q) blocks

section

variable {given given' : ℕ → Prop} {bs bs' : List Block} {b : Block} {q address : ℕ} {l : List UInt8}

theorem GivenBefore.mono (h : GivenBefore given bs) (hle : ∀ q, given q → given' q) :
    GivenBefore given' bs := by
  induction bs generalizing given given' with
  | nil => trivial
  | cons b bs ih => exact ⟨fun address l hb i hi => hle _ (h.1 address l hb i hi), ih h.2 fun q =>
    Or.imp_left (hle q)⟩

theorem allocs_cons : Allocs (b :: bs) q ↔ b.Allocs q ∨ Allocs bs q := by
  simp only [Allocs, List.mem_cons, or_and_right, exists_or, exists_eq_left]

theorem allocs_append : Allocs (bs ++ bs') q ↔ Allocs bs q ∨ Allocs bs' q := by
  simp only [Allocs, List.mem_append, or_and_right, exists_or]

theorem not_allocs_nil : ¬ Allocs [] q := by
  rintro ⟨b, hb, -⟩
  exact absurd hb List.not_mem_nil

theorem givenBefore_append (given : ℕ → Prop) (bs bs' : List Block) : GivenBefore given (bs ++ bs') ↔
    GivenBefore given bs ∧ GivenBefore (fun q => given q ∨ Allocs bs q) bs' := by
  induction bs generalizing given with
  | nil => exact ⟨fun h => ⟨trivial, h.mono fun q => .inl⟩, fun h => h.2.mono fun q hq =>
    hq.resolve_right not_allocs_nil⟩
  | cons b bs ih =>
    have hcons : ∀ q, (given q ∨ b.Allocs q) ∨ Allocs bs q ↔ given q ∨ Allocs (b :: bs) q :=
      fun q => by rw [allocs_cons, or_assoc]
    show _ ∧ GivenBefore _ (bs ++ bs') ↔ (_ ∧ _) ∧ _
    rw [ih, and_assoc]
    refine and_congr_right fun _ => and_congr_right fun _ => ?_
    exact ⟨fun h => h.mono fun q => (hcons q).mp, fun h => h.mono fun q => (hcons q).mpr⟩

theorem GivenBefore.of_mem (h : GivenBefore given bs) (hb : .bytes address l ∈ bs) {i : ℕ}
    (hi : i < l.length) :
    given ((address + i) % 2 ^ 32 / 0x1000) ∨ Allocs bs ((address + i) % 2 ^ 32 / 0x1000) := by
  obtain ⟨pre, post, rfl⟩ := List.append_of_mem hb
  exact (((givenBefore_append _ _ _).mp h).2.1 address l rfl i hi).imp_right fun hp =>
    allocs_append.mpr (.inl hp)

theorem givenBefore_bytes : GivenBefore given (.bytes address l :: bs) ↔
    (∀ i < l.length, given ((address + i) % 2 ^ 32 / 0x1000)) ∧ GivenBefore given bs := by
  refine and_congr ⟨fun h => h address l rfl, fun h a l' he => ?_⟩ ⟨fun h => h.mono fun q hq =>
    hq.resolve_right id, fun h => h.mono fun q => .inl⟩
  obtain ⟨rfl, rfl⟩ := Block.bytes.inj he
  exact h

theorem givenBefore_range {start stop : ℕ} : GivenBefore given (.range start stop :: bs) ↔
    GivenBefore (fun q => given q ∨ ∃ k, start + 0x1000 * k < stop ∧ q = start / 0x1000 + k) bs :=
  and_iff_right fun _ _ he => Block.noConfusion he

theorem givenBefore_page : GivenBefore given (.page address :: bs) ↔ GivenBefore
    (fun q => given q ∨ q = address / 0x1000) bs :=
  and_iff_right fun _ _ he => Block.noConfusion he

end

/-! ### The strings -/

def stringBytes (strings : List (List UInt8)) : ℕ := (strings.map (·.length + 1)).sum

/-- The size of the pointer arrays and the auxiliary vector. -/
def tableSize (argv env : List (List UInt8)) : ℕ := 4 * (argv.length + 1) + 4 * (env.length + 1) + 16

theorem stringsEnd_eq (strings : List (List UInt8)) : ∀ {heap : ℕ}, heap + stringBytes strings < 2 ^ 32 →
    stringsEnd heap strings = heap + stringBytes strings := by
  induction strings with
  | nil => exact fun _ => rfl
  | cons string strings ih =>
    intro heap h
    have hsum : stringBytes (string :: strings) = string.length + 1 + stringBytes strings := List.sum_cons
    rw [hsum] at h ⊢
    show stringsEnd ((heap + (string.length + 1)) % 2 ^ 32) strings = _
    rw [Nat.mod_eq_of_lt (by omega), ih (by omega), Nat.add_assoc]

theorem stringBlocks_cons {string : List UInt8} {strings : List (List UInt8)} {table heap : ℕ}
    (ht : table + 4 * (strings.length + 1) < 2 ^ 32)
    (hh : heap + stringBytes (string :: strings) + 0x1000 < 2 ^ 32) :
    heap + (string.length + 1) + stringBytes strings + 0x1000 < 2 ^ 32 ∧
    stringBlocks table (string :: strings) heap = .range heap (heap + (string.length + 1) + 0x1000) ::
      .bytes table (Buf.bytesOf heap |> fun b => [b 0, b 1, b 2, b 3]) :: .bytes heap (string ++ [0]) ::
        stringBlocks (table + 4) strings (heap + (string.length + 1)) := by
  have hsum : stringBytes (string :: strings) = string.length + 1 + stringBytes strings := List.sum_cons
  rw [hsum] at hh
  refine ⟨by omega, ?_⟩
  rw [stringBlocks, Nat.mod_eq_of_lt (show heap + (string.length + 1) + 0x1000 < 2 ^ 32 by omega),
    Nat.mod_eq_of_lt (show table + 4 < 2 ^ 32 by omega),
      Nat.mod_eq_of_lt (show heap + (string.length + 1) < 2 ^ 32 by omega)]
  rfl

section

variable {given : ℕ → Prop} {q : ℕ}

/-- Frames are for pages behind the pointers only. -/
theorem le_of_allocs_strings (strings : List (List UInt8)) : ∀ {table heap : ℕ},
    table + 4 * strings.length < 2 ^ 32 →
    heap + stringBytes strings + 0x1000 < 2 ^ 32 → Allocs (stringBlocks table strings heap) q →
      heap / 0x1000 ≤ q := by
  induction strings with
  | nil => exact fun _ _ h => absurd h not_allocs_nil
  | cons string strings ih =>
    intro table heap ht hh h
    rw [List.length_cons] at ht
    obtain ⟨hh', hblocks⟩ := stringBlocks_cons ht hh
    rw [hblocks, allocs_cons, allocs_cons, allocs_cons] at h
    obtain ⟨k, -, rfl⟩ | h | h | h := h
    · exact Nat.le_add_right _ _
    · exact absurd h id
    · exact absurd h id
    · exact (Nat.div_le_div_right (Nat.le_add_right _ _)).trans (ih (by omega) hh' h)

theorem mem_stringBlocks (strings : List (List UInt8)) : ∀ {table heap i : ℕ},
    table + 4 * strings.length < 2 ^ 32 →
    heap + stringBytes strings + 0x1000 < 2 ^ 32 → i < strings.length →
    ∃ l, l.length = 4 ∧ .bytes (table + 4 * i) l ∈ stringBlocks table strings heap := by
  induction strings with
  | nil => exact fun _ _ hi => absurd hi (Nat.not_lt_zero _)
  | cons string strings ih =>
    intro table heap i ht hh hi
    rw [List.length_cons] at ht hi
    obtain ⟨hh', hblocks⟩ := stringBlocks_cons ht hh
    rw [hblocks]
    cases i with
    | zero => exact ⟨_, rfl, List.mem_cons_of_mem _ List.mem_cons_self⟩
    | succ i =>
      obtain ⟨l, hl, hmem⟩ := @ih (table + 4) _ i (by omega) hh' (by omega)
      rw [Nat.add_assoc, Nat.add_comm 4, ← Nat.mul_succ] at hmem
      exact ⟨l, hl, List.mem_cons_of_mem _ (List.mem_cons_of_mem _ (List.mem_cons_of_mem _ hmem))⟩

/-- The first string gets its first page, if there is one. -/
theorem allocs_strings {strings : List (List UInt8)} (hne : strings ≠ []) {table heap : ℕ}
    (ht : table + 4 * strings.length < 2 ^ 32)
    (hh : heap + stringBytes strings + 0x1000 < 2 ^ 32) :
      Allocs (stringBlocks table strings heap) (heap / 0x1000) := by
  cases strings with
  | nil => exact absurd rfl hne
  | cons string strings =>
    rw [(stringBlocks_cons ht hh).2, allocs_cons]
    exact .inl ⟨0, by omega, rfl⟩

theorem givenBefore_strings (size : ℕ) (strings : List (List UInt8)) : ∀ {given : ℕ → Prop} {table heap : ℕ},
    heap + stringBytes strings + 0x1000 < 2 ^ 32 → size ≤ heap → table + 4 * strings.length ≤ size →
      (∀ q < size / 0x1000, given q) →
    (given (size / 0x1000) ∨ heap / 0x1000 = size / 0x1000) →
      GivenBefore given (stringBlocks table strings heap) := by
  induction strings with
  | nil => exact fun _ _ _ _ _ => trivial
  | cons string strings ih =>
    intro given table heap hh hheap htable hlow hlast
    rw [List.length_cons] at htable
    obtain ⟨hh', hblocks⟩ := stringBlocks_cons (show table + 4 * (strings.length + 1) < 2 ^ 32 by omega) hh
    have hsize : given (size / 0x1000) ∨ ∃ k, heap + 0x1000 * k < heap + (string.length + 1) + 0x1000 ∧
      size / 0x1000 = heap / 0x1000 + k :=
      hlast.imp_right fun he => ⟨0, by omega, he.symm⟩
    rw [hblocks, givenBefore_range, givenBefore_bytes, givenBefore_bytes]
    refine ⟨fun i hi => ?_, fun i hi => ?_, ih hh' (by omega) (by omega) (fun q hq => .inl (hlow q hq))
      (.inl hsize)⟩
    · -- the pointer is in the pages of the table
      have hi : i < 4 := hi
      rcases (by omega : (table + i) % 2 ^ 32 / 0x1000 < size / 0x1000 ∨
        (table + i) % 2 ^ 32 / 0x1000 = size / 0x1000) with hq | hq
      · exact .inl (hlow _ hq)
      · exact hq ▸ hsize
    · rw [List.length_append, List.length_singleton] at hi
      exact .inr ⟨(heap + i) / 0x1000 - heap / 0x1000, by omega, by omega⟩

end

/-! ### The whole block -/

theorem argumentBlocks_eq {argv env : List (List UInt8)}
    (h : tableSize argv env + stringBytes argv + stringBytes env + 0x1000 < 2 ^ 32) :
    argumentBlocks argv env =
      .page 0 :: (stringBlocks 0 argv (tableSize argv env) ++ (.bytes (4 * argv.length) [0, 0, 0, 0] ::
      (stringBlocks (4 * (argv.length + 1)) env (tableSize argv env + stringBytes argv) ++
        [.bytes (4 * (argv.length + 1) + 4 * env.length) [0, 0, 0, 0],
          .bytes (4 * (argv.length + 1) + 4 * (env.length + 1)) auxv]))) := by
  have htable : tableSize argv env = 4 * (argv.length + 1) + 4 * (env.length + 1) + 16 := rfl
  have henv : (0 + 4 * (argv.length + 1)) % 2 ^ 32 = 4 * (argv.length + 1) := by omega
  have hauxv : (4 * (argv.length + 1) + 4 * (env.length + 1)) % 2 ^ 32 =
    4 * (argv.length + 1) + 4 * (env.length + 1) := by omega
  have hheap : (4 * (argv.length + 1) + 4 * (env.length + 1) + 16) % 2 ^ 32 = tableSize argv env := by omega
  have hargvEnd : (0 + 4 * argv.length) % 2 ^ 32 = 4 * argv.length := by omega
  have henvEnd : (4 * (argv.length + 1) + 4 * env.length) % 2 ^ 32 =
    4 * (argv.length + 1) + 4 * env.length := by omega
  simp only [argumentBlocks, henv, hauxv, hheap, hargvEnd, henvEnd,
    stringsEnd_eq argv (show tableSize argv env + stringBytes argv < 2 ^ 32 by omega)]
  rfl

section

variable {given : ℕ → Prop} {argv env : List (List UInt8)}
    (h : tableSize argv env + stringBytes argv + stringBytes env + 0x1000 < 2 ^ 32)
include h

theorem allocs_argumentBlocks {q : ℕ} (hq : Allocs (argumentBlocks argv env) q) : q = 0 ∨
    tableSize argv env / 0x1000 ≤ q := by
  have htable : tableSize argv env = 4 * (argv.length + 1) + 4 * (env.length + 1) + 16 := rfl
  rw [argumentBlocks_eq h, allocs_cons, allocs_append, allocs_cons, allocs_append, allocs_cons,
    allocs_cons] at hq
  obtain hq | hq | hq | hq | hq | hq | hq := hq
  · exact .inl hq
  · exact .inr (le_of_allocs_strings argv (by omega) (by omega) hq)
  · exact absurd hq id
  · exact .inr ((Nat.div_le_div_right (Nat.le_add_right _ _)).trans
      (le_of_allocs_strings env (by omega) (by omega) hq))
  · exact absurd hq id
  · exact absurd hq id
  · exact absurd hq not_allocs_nil

/-- Every word of the pointer arrays and the vector is written. -/
theorem mem_argumentBlocks {i : ℕ} (hi : 4 * i < tableSize argv env) : ∃ address l,
    .bytes address l ∈ argumentBlocks argv env ∧
    ∃ k < l.length, address + k = 4 * i := by
  have htable : tableSize argv env = 4 * (argv.length + 1) + 4 * (env.length + 1) + 16 := rfl
  rw [argumentBlocks_eq h]
  simp only [List.mem_cons, List.mem_append, List.not_mem_nil, or_false]
  rcases (by omega : i < argv.length ∨ i = argv.length ∨
      (argv.length + 1 ≤ i ∧ i - (argv.length + 1) < env.length) ∨
    i = argv.length + 1 + env.length ∨ argv.length + 1 + (env.length + 1) ≤ i) with hc | hc | hc | hc | hc
  · obtain ⟨l, hl, hmem⟩ := @mem_stringBlocks argv 0 (tableSize argv env) i (by omega) (by omega) hc
    exact ⟨_, l, .inr (.inl hmem), 0, by omega, by omega⟩
  · exact ⟨_, _, .inr (.inr (.inl rfl)), 0, by decide, by omega⟩
  · obtain ⟨l, hl, hmem⟩ :=
      @mem_stringBlocks env (4 * (argv.length + 1)) (tableSize argv env + stringBytes argv) _ (by omega)
      (by omega) hc.2
    exact ⟨_, l, .inr (.inr (.inr (.inl hmem))), 0, by omega, by omega⟩
  · exact ⟨_, _, .inr (.inr (.inr (.inr (.inl rfl)))), 0, by decide, by omega⟩
  · refine ⟨_, _, .inr (.inr (.inr (.inr (.inr rfl)))),
      4 * i - (4 * (argv.length + 1) + 4 * (env.length + 1)), ?_, by omega⟩
    show _ < 16
    omega

/-- The page in which the pointers end has a frame as soon as there is a string, and is the first one
otherwise. -/
theorem allocs_last : Allocs (stringBlocks 0 argv (tableSize argv env)) (tableSize argv env / 0x1000) ∨
    argv = [] ∧ (tableSize argv env / 0x1000 = 0 / 0x1000 ∨
      Allocs (stringBlocks (4 * (argv.length + 1)) env (tableSize argv env + stringBytes argv))
        (tableSize argv env / 0x1000)) := by
  have htable : tableSize argv env = 4 * (argv.length + 1) + 4 * (env.length + 1) + 16 := rfl
  by_cases ha : argv = []
  · refine .inr ⟨ha, ?_⟩
    by_cases he : env = []
    · subst ha he
      exact .inl rfl
    · have hbytes : stringBytes argv = 0 := by
        rw [ha]
        rfl
      have hstring := allocs_strings he (show 4 * (argv.length + 1) + 4 * env.length < 2 ^ 32 by omega) h
      rw [hbytes] at hstring ⊢
      exact .inr hstring
  · exact .inl (allocs_strings ha (by omega) (by omega))

/-- The whole pages of the pointers have to be given a frame before. -/
theorem given_of_givenBefore (hg : GivenBefore given (argumentBlocks argv env)) {q : ℕ} (hq : 0 < q)
    (hsize : (q + 1) * 0x1000 ≤ tableSize argv env) : given q := by
  obtain ⟨address, l, hmem, k, hk, he⟩ :=
    mem_argumentBlocks h (show 4 * (0x400 * q) < tableSize argv env by omega)
  have hpage : (address + k) % 2 ^ 32 / 0x1000 = q := by omega
  rw [← hpage]
  refine (hg.of_mem hmem hk).resolve_right fun ha => ?_
  have := allocs_argumentBlocks h ha
  omega

theorem givenBefore_of_given (hall : ∀ q, 0 < q → (q + 1) * 0x1000 ≤ tableSize argv env → given q) :
    GivenBefore given (argumentBlocks argv env) := by
  have htable : tableSize argv env = 4 * (argv.length + 1) + 4 * (env.length + 1) + 16 := rfl
  -- the pages in front of the one in which the pointers end
  have hlow : ∀ q < tableSize argv env / 0x1000, given q ∨ q = 0 / 0x1000 := by
    intro q hq
    rcases Nat.eq_zero_or_pos q with rfl | hpos
    · exact .inr rfl
    · exact .inl (hall q hpos (by omega))
  have hpage : ∀ {address : ℕ}, address < tableSize argv env →
    address % 2 ^ 32 / 0x1000 < tableSize argv env / 0x1000 ∨
      address % 2 ^ 32 / 0x1000 = tableSize argv env / 0x1000 := by
    intro address ha
    omega
  have hbehind : ∀ {address : ℕ}, address < tableSize argv env →
      ((given (address % 2 ^ 32 / 0x1000) ∨ address % 2 ^ 32 / 0x1000 = 0 / 0x1000) ∨
        Allocs (stringBlocks 0 argv (tableSize argv env)) (address % 2 ^ 32 / 0x1000)) ∨
      Allocs (stringBlocks (4 * (argv.length + 1)) env (tableSize argv env + stringBytes argv))
        (address % 2 ^ 32 / 0x1000) := by
    intro address haddress
    rcases hpage haddress with hq | hq
    · exact .inl (.inl (hlow _ hq))
    · rw [hq]
      obtain hargv | ⟨-, hzero | henv⟩ := allocs_last h
      · exact .inl (.inr hargv)
      · exact .inl (.inl (.inr hzero))
      · exact .inr henv
  rw [argumentBlocks_eq h, givenBefore_page, givenBefore_append, givenBefore_bytes, givenBefore_append,
    givenBefore_bytes, givenBefore_bytes]
  refine ⟨givenBefore_strings _ argv (by omega) le_rfl (by omega) hlow (.inr rfl), fun i hi => ?_,
    givenBefore_strings _ env h (Nat.le_add_right _ _) (by omega) (fun q hq => .inl (hlow q hq)) ?_,
      fun i hi => ?_, fun i hi => ?_, trivial⟩
  · have hi : i < 4 := hi
    rcases hpage (show 4 * argv.length + i < tableSize argv env by omega) with hq | hq
    · exact .inl (hlow _ hq)
    · obtain hargv | ⟨ha, -⟩ := allocs_last h
      · exact .inr (hq ▸ hargv)
      · have hzero : argv.length = 0 := List.length_eq_zero_iff.mpr ha
        exact .inl (.inr (by omega))
  · obtain hargv | ⟨ha, -⟩ := allocs_last h
    · exact .inl (.inr hargv)
    · right
      rw [ha]
      rfl
  · have hi : i < 4 := hi
    exact hbehind (by omega)
  · have hi : i < 16 := hi
    exact hbehind (by omega)

theorem givenBefore_argumentBlocks : GivenBefore given (argumentBlocks argv env) ↔
    ∀ q, 0 < q → (q + 1) * 0x1000 ≤ tableSize argv env → given q :=
  ⟨fun hg _ hq hsize => given_of_givenBefore h hg hq hsize, givenBefore_of_given h⟩

end

/-! ### A call -/

section

variable (ldSo : Option RawFile) (name : List UInt8) (env : List (List UInt8)) (dir : ℕ) (image : Image)
    (s : Mmu) (junk : ℕ → Junk)

def execBlocks : (fuel depth : ℕ) → RawFile → (argv : List (List UInt8)) → List Block × List Block
  | 0, _, _, _ => ([], [])
  | fuel + 1, depth, file, argv =>
    if ¬ file.Magic (junk depth) then ([], [])
    else if file.Dynamic (junk depth) then
      match ldSo with
      | none => ([], [])
      | some interpreter => execBlocks fuel (depth + 1) interpreter (interpreterArgs name argv)
    else
      match file.phdrs (junk depth) 2 with
      | none => ([], [])
      | some phs => (segmentBlocks file phs, argumentBlocks argv env)

/-- The file that is loaded, with its program headers and arguments: the one that the call is for, or an
interpreter. -/
inductive Loads : (depth : ℕ) → (file : RawFile) → (argv : List (List UInt8)) → RawFile → List Phdr →
    List (List UInt8) → Prop
  | file {depth : ℕ} {file : RawFile} {argv : List (List UInt8)} {phs : List Phdr}
    (magic : file.Magic (junk depth))
    (static : ¬ file.Dynamic (junk depth)) (phdrs : file.phdrs (junk depth) 2 = some phs) :
      Loads depth file argv file phs argv
  | interpreter {depth : ℕ} {file interpreter f : RawFile} {argv argv' : List (List UInt8)} {phs : List Phdr}
    (passes : Passes file (junk depth)) (opened : ldSo = some interpreter)
    (loads : Loads (depth + 1) interpreter (interpreterArgs name argv) f phs argv') :
      Loads depth file argv f phs argv'

/-- If the segments are all loaded, every byte of the arguments is written to a page that was given a frame
earlier in the call. -/
def ArgumentsMapped (fuel : ℕ) (file : RawFile) (argv : List (List UInt8)) : Prop :=
  (runBlocks dir (execBlocks ldSo name env junk fuel 0 file argv).1 (s.releaseDirectoryForExec dir)).isSome →
    GivenBefore (Allocs (execBlocks ldSo name env junk fuel 0 file argv).1)
      (execBlocks ldSo name env junk fuel 0 file argv).2

variable {ldSo name env dir image s junk} {file f : RawFile} {argv argv' : List (List UInt8)}
    {phs : List Phdr} {depth : ℕ}

theorem enterImage_memory {entry : ℕ} {e : Entered} (h : enterImage dir entry argv env image s = some e) :
    ∃ s', runBlocks dir (argumentBlocks argv env) s = some s' ∧ e.memory =
      s'.allocPage dir e.image.heapActual := by
  have hstack : s.allocRange dir userStackTop rounds userStackBottom = some s := rfl
  obtain ⟨heap, hplace⟩ := placeArguments_eq_blocks dir argv env
    { image with entry := 0, heap := 0, heapActual := 0, userStack := 0, size := 0, shmHeap := shmStart }
    rfl rfl
  simp only [enterImage, hstack, hplace, Option.bind_eq_bind, Option.bind_some] at h
  cases hrun : runBlocks dir (argumentBlocks argv env) s with
  | none => exact absurd h (by simp [hrun])
  | some s' =>
    rw [hrun] at h
    obtain rfl := Option.some.inj h
    exact ⟨s', rfl, rfl⟩

/-- A program that gets to user mode was loaded by these steps. -/
theorem execRaw_memory {e : Entered} (fuel : ℕ) : ∀ {depth : ℕ} {file : RawFile} {argv : List (List UInt8)},
    execRaw ldSo name env dir image s junk fuel depth file argv = some (some e) →
    ∃ s', runBlocks dir ((execBlocks ldSo name env junk fuel depth file argv).1 ++
        (execBlocks ldSo name env junk fuel depth file argv).2) (s.releaseDirectoryForExec dir) = some s' ∧
      e.memory = s'.allocPage dir e.image.heapActual := by
  induction fuel with
  | zero => exact fun h => absurd h (by simp [execRaw])
  | succ fuel ih =>
    intro depth file argv h
    by_cases hm : file.Magic (junk depth)
    · by_cases hd : file.Dynamic (junk depth)
      · cases ldSo with
        | none => exact absurd (execRaw_noInterpreter ⟨hm, hd⟩ ▸ h) (by simp)
        | some interpreter =>
          rw [execRaw_interpreter ⟨hm, hd⟩] at h
          simpa only [execBlocks, hm, hd, not_true_eq_false, if_true, if_false] using ih h
      · rw [execRaw.eq_def] at h
        dsimp only at h
        rw [if_neg (not_not.mpr hm), if_neg hd] at h
        obtain ⟨phs₁, -, h⟩ := Option.bind_eq_some_iff.mp h
        obtain ⟨phs, hphs, h⟩ := Option.bind_eq_some_iff.mp h
        obtain ⟨s₁, hload, h⟩ := Option.bind_eq_some_iff.mp h
        obtain ⟨e', henter, h⟩ := Option.bind_eq_some_iff.mp h
        obtain rfl := Option.some.inj (Option.some.inj h)
        simp only [execBlocks, hm, hd, not_true_eq_false, if_false, hphs]
        rw [loadSegments_eq_blocks] at hload
        rw [runBlocks_append, hload, Option.bind_some]
        exact enterImage_memory henter
    · exact absurd (execRaw_refused hm ▸ h) (by simp)

theorem Loads.execBlocks (h : Loads ldSo name junk depth file argv f phs argv') :
    ∃ fuel, execBlocks ldSo name env junk fuel depth file argv =
      (segmentBlocks f phs, argumentBlocks argv' env) := by
  induction h with
  | file hm hd hphs => exact ⟨1, by simp only [Elf.execBlocks, hm, hd, not_true_eq_false, if_false, hphs]⟩
  | interpreter hp hopen _ ih =>
    subst hopen
    obtain ⟨fuel, hfuel⟩ := ih
    exact ⟨fuel + 1, by simp only [Elf.execBlocks, hp.1, hp.2, not_true_eq_false, if_true, if_false, hfuel]⟩

theorem execBlocks_loads (fuel : ℕ) : ∀ {depth : ℕ} {file : RawFile} {argv : List (List UInt8)},
    execBlocks ldSo name env junk fuel depth file argv = ([], []) ∨ ∃ f phs argv',
      Loads ldSo name junk depth file argv f phs argv' ∧
      execBlocks ldSo name env junk fuel depth file argv =
        (segmentBlocks f phs, argumentBlocks argv' env) := by
  induction fuel with
  | zero => exact .inl rfl
  | succ fuel ih =>
    intro depth file argv
    by_cases hm : file.Magic (junk depth)
    · by_cases hd : file.Dynamic (junk depth)
      · cases ldSo with
        | none => exact .inl (by simp only [execBlocks, hm, hd, not_true_eq_false, if_true, if_false])
        | some interpreter =>
          simp only [execBlocks, hm, hd, not_true_eq_false, if_true, if_false]
          obtain hnone | ⟨f, phs, argv', hloads, hblocks⟩ :=
            @ih (depth + 1) interpreter (interpreterArgs name argv)
          · exact .inl hnone
          · exact .inr ⟨f, phs, argv', .interpreter ⟨hm, hd⟩ rfl hloads, hblocks⟩
      · cases hphs : file.phdrs (junk depth) 2 with
        | none => exact .inl (by simp only [execBlocks, hm, hd, not_true_eq_false, if_false, hphs])
        | some phs =>
          exact .inr ⟨file, phs, argv,
            .file hm hd hphs, by simp only [execBlocks, hm, hd, not_true_eq_false, if_false, hphs]⟩
    · exact .inl (by simp only [execBlocks, hm, not_false_eq_true, if_true])

theorem Loads.phdrs_of (h : Loads ldSo name junk depth file argv f phs argv') : ∃ j, f.phdrs j 2 =
    some phs := by
  induction h with
  | file _ _ hphs => exact ⟨_, hphs⟩
  | interpreter _ _ _ ih => exact ih

theorem not_allocs_copyBlock {ph : Phdr} {q : ℕ} : ¬ (copyBlock file ph).Allocs q := by
  unfold copyBlock
  cases file.read ph.pOffset ph.pFilesz with
  | none => exact id
  | some r => exact id

theorem allocs_segmentBlocks {q : ℕ} : Allocs (segmentBlocks file phs) q ↔
    ∃ ph ∈ phs, ph.pType = ptLoad ∧ ∃ k, ph.pVaddr + 0x1000 * k < (ph.pVaddr + ph.pMemsz) % 2 ^ 32 ∧ q =
      ph.pVaddr / 0x1000 + k := by
  simp only [Allocs, segmentBlocks, List.mem_flatMap, List.mem_filter, decide_eq_true_eq]
  constructor
  · rintro ⟨b, ⟨ph, ⟨hph, ht⟩, hb⟩, hq⟩
    simp only [List.mem_cons, List.not_mem_nil, or_false] at hb
    obtain rfl | rfl | rfl := hb
    · exact ⟨ph, hph, ht, hq⟩
    · exact absurd hq not_allocs_copyBlock
    · exact absurd hq id
  · rintro ⟨ph, hph, ht, hq⟩
    exact ⟨_, ⟨ph, ⟨hph, ht⟩, List.mem_cons_self⟩, hq⟩

theorem Loads.segments_iff (h : Loads ldSo name junk depth file argv f phs argv') (hs : s.Loadable dir) :
    (runBlocks dir (segmentBlocks f phs) (s.releaseDirectoryForExec dir)).isSome ↔
      BlocksEnd (s.Kept dir) (segmentBlocks f phs) := by
  obtain ⟨hready, hkept⟩ := Mmu.releaseDirectoryForExec_ready hs
  obtain ⟨j, hphs⟩ := h.phdrs_of
  have hsmall : ∀ b ∈ segmentBlocks f phs, b.Small := fun b hb =>
    callBlocks_small hphs [] [] b (List.mem_append_left _ hb)
  rw [runBlocks_isSome_iff _ hready hsmall, blocksEnd_congr hsmall hkept]

end

theorem loads_oneSegment {argv argv' : List (List UInt8)} {f : RawFile} {phs : List Phdr}
    (h : Loads none [] (fun _ => noJunk) 0 (oneSegment 0x8048000 0x10).toRawFile argv f phs argv') :
    phs = [⟨ptLoad, 0, 0x8048000, 0, 0x10⟩] ∧ argv' = argv := by
  cases h with
  | file _ _ hphs => exact ⟨Option.some.inj (hphs.symm.trans phdrs_oneSegment), rfl⟩
  | interpreter _ hopen _ => exact absurd hopen (by simp)

theorem execBlocks_oneSegment (argv : List (List UInt8)) :
    execBlocks none [] [] (fun _ => noJunk) 1 0 (oneSegment 0x8048000 0x10).toRawFile argv =
      (segmentBlocks (oneSegment 0x8048000 0x10).toRawFile [⟨ptLoad, 0, 0x8048000, 0, 0x10⟩],
        argumentBlocks argv []) := by
  have hm : (oneSegment 0x8048000 0x10).toRawFile.Magic noJunk := by decide +kernel
  have hd : ¬ (oneSegment 0x8048000 0x10).toRawFile.Dynamic noJunk := by decide +kernel
  simp only [execBlocks, hm, hd, not_true_eq_false, if_false, phdrs_oneSegment]

theorem oneSegment_loaded :
    (runBlocks 2 (segmentBlocks (oneSegment 0x8048000 0x10).toRawFile [⟨ptLoad, 0, 0x8048000, 0, 0x10⟩])
    (emptyMmu.releaseDirectoryForExec 2)).isSome = true := by
  rw [releaseDirectoryForExec_emptyMmu]
  decide +kernel

theorem not_argumentsMapped {argv : List (List UInt8)} (hargc : argv.length = 2042)
    (hbytes : stringBytes argv = 2042) :
    ¬ ArgumentsMapped none [] [] 2 emptyMmu (fun _ => noJunk) 1 (oneSegment 0x8048000 0x10).toRawFile
      argv := by
  rw [ArgumentsMapped, execBlocks_oneSegment]
  intro hmapped
  have hsize : tableSize argv [] = 0x2000 := by
    rw [tableSize, hargc]
    rfl
  have hwrap : tableSize argv [] + stringBytes argv + stringBytes [] + 0x1000 < 2 ^ 32 := by
    rw [hsize, hbytes]
    decide
  have hone := (givenBefore_argumentBlocks hwrap).mp (hmapped oneSegment_loaded) 1 Nat.one_pos hsize.ge
  rw [allocs_segmentBlocks] at hone
  obtain ⟨ph, hph, -, k, -, hq⟩ := hone
  obtain rfl := List.mem_singleton.mp hph
  dsimp only at hq
  omega

end ChiffOS.Elf
