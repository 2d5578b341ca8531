import ChiffOS.Elf.Segments

/-! When `exec_elf` comes to an end, for files of any contents and length: the headers it sees may be what
was on the stack before. The interpreter is loaded in the same way, so a dynamic one is opened for ever. A
loop over pages can go round the addresses, and the handler of page faults does not return. -/

namespace ChiffOS.Elf

open Mem Option

/-! ### The steps of the loader -/

/-- A page is given a frame, a loop over pages, bytes that are written, or a copy without an end. -/
inductive Block where
  | page (address : ℕ)
  | range (start stop : ℕ)
  | bytes (address : ℕ) (bs : List UInt8)
  | endless
deriving DecidableEq

def Block.run (dir : ℕ) (s : Mmu) : Block → Option Mmu
  | .page address => some (s.allocPage dir address)
  | .range start stop => s.allocRange dir stop rounds start
  | .bytes address bs => s.storeBytes dir address bs
  | .endless => none

def runBlocks (dir : ℕ) (blocks : List Block) (s : Mmu) : Option Mmu := blocks.foldlM (Block.run dir) s

def BlocksEnd : (there : ℕ → Prop) → List Block → Prop
  | _, [] => True
  | there, .page address :: blocks => BlocksEnd (fun n => there n ∨ n = address / 0x1000) blocks
  | there, .range start stop :: blocks => stop ≤ 0xFFFFF000 + start % 0x1000 ∧
    BlocksEnd (fun n => there n ∨ ∃ k, start + 0x1000 * k < stop ∧ n = start / 0x1000 + k) blocks
  | there, .bytes address bs :: blocks => (∀ i < bs.length, there ((address + i) % 2 ^ 32 / 0x1000)) ∧
    BlocksEnd there blocks
  | _, .endless :: _ => False

def Block.Small : Block → Prop
  | .page address => address < 2 ^ 32
  | .range start stop => start < 2 ^ 32 ∧ stop < 2 ^ 32
  | .bytes address _ => address < 2 ^ 32
  | .endless => True

theorem BlocksEnd.mono {there there' : ℕ → Prop} {blocks : List Block} (h : BlocksEnd there blocks)
    (hsmall : ∀ b ∈ blocks, b.Small)
    (hle : ∀ n < 2 ^ 20, there n → there' n) : BlocksEnd there' blocks := by
  induction blocks generalizing there there' with
  | nil => trivial
  | cons b blocks ih =>
    have hrest : ∀ b ∈ blocks, b.Small := fun b hb => hsmall b (List.mem_cons_of_mem _ hb)
    cases b with
    | page address => exact ih h hrest fun n hn => Or.imp_left (hle n hn)
    | range start stop => exact ⟨h.1, ih h.2 hrest fun n hn => Or.imp_left (hle n hn)⟩
    | bytes address bs => exact ⟨fun i hi => hle _ (by omega) (h.1 i hi), ih h.2 hrest hle⟩
    | endless => exact h

theorem blocksEnd_congr {there there' : ℕ → Prop} {blocks : List Block} (hsmall : ∀ b ∈ blocks, b.Small)
    (h : ∀ n < 2 ^ 20, there n ↔ there' n) : BlocksEnd there blocks ↔ BlocksEnd there' blocks :=
  ⟨fun hb => hb.mono hsmall fun n hn => (h n hn).mp, fun hb => hb.mono hsmall fun n hn => (h n hn).mpr⟩

theorem ready_memory {s : Mmu} {dir : ℕ} (h : s.Ready dir) (memory : ℕ → ℕ → UInt8) :
    ({ s with memory := memory } : Mmu).Ready dir :=
  ⟨h.distinct, h.inj, h.ne_zero, h.fresh⟩

theorem runBlocks_isSome_iff {dir : ℕ} (blocks : List Block) : ∀ {s : Mmu}, s.Ready dir →
    (∀ b ∈ blocks, b.Small) →
    ((runBlocks dir blocks s).isSome ↔ BlocksEnd (s.Present dir) blocks) := by
  induction blocks with
  | nil => exact fun _ _ => ⟨fun _ => trivial, fun _ => rfl⟩
  | cons b blocks ih =>
    intro s h hsmall
    have hrest : ∀ b ∈ blocks, b.Small := fun b hb => hsmall b (List.mem_cons_of_mem _ hb)
    have hb := hsmall b List.mem_cons_self
    rw [runBlocks, List.foldlM_cons]
    cases b with
    | page address =>
      obtain ⟨h₁, hp⟩ := Mmu.allocPage_ready h hb
      exact (ih h₁ hrest).trans (blocksEnd_congr hrest hp)
    | range start stop =>
      by_cases hend : stop ≤ 0xFFFFF000 + start % 0x1000
      · have hstop := hb.2
        obtain ⟨s₁, hrun, h₁, hp⟩ : ∃ s₁, s.allocRange dir stop rounds start = some s₁ ∧ s₁.Ready dir ∧
          ∀ n < 2 ^ 20, s₁.Present dir n ↔
            s.Present dir n ∨ ∃ k, start + 0x1000 * k < stop ∧ n = start / 0x1000 + k :=
          Mmu.allocRange_ready stop (2 ^ 20) h hb.1 hend (by omega) (by decide)
        show ((s.allocRange dir stop rounds start).bind _).isSome = true ↔ _ ∧ _
        rw [hrun]
        exact ((ih h₁ hrest).trans (blocksEnd_congr hrest hp)).trans (and_iff_right hend).symm
      · show ((s.allocRange dir stop rounds start).bind _).isSome = true ↔ _ ∧ _
        rw [Mmu.allocRange_endless stop rounds hb.1 (Nat.not_le.mp hend)]
        simp [hend]
    | bytes address bs =>
      show ((s.storeBytes dir address bs).bind _).isSome = true ↔ _ ∧ _
      obtain ⟨hall, memory, hrun⟩ | ⟨hno, hrun⟩ := Mmu.storeBytes_spec dir bs s address hb
      · rw [hrun]
        exact (ih (ready_memory h memory) hrest).trans (and_iff_right hall).symm
      · rw [hrun]
        exact ⟨fun hn => absurd hn (by simp), fun hn => absurd hn.1 hno⟩
    | endless => exact ⟨fun hn => absurd hn (by simp [Block.run]), fun hn => absurd hn id⟩

/-! ### Files of any contents -/

/-- What was in the local variables of a call before they were read: `header`, and `phdr` in each round of
the three loops. -/
structure Junk where
  header : Buf
  phdr : (loop round : ℕ) → Buf

namespace RawFile

/-- A variable after `read_fs`; `none` if something else on the stack is overwritten. -/
def readInto (file : RawFile) (offset size : ℕ) (junk : Buf) : Option Buf := do
  let (before, bs) ← file.read offset size
  if bs = [] ∨ before = 0 ∧ bs.length ≤ size then some fun i => bs.getD i (junk i) else none

def header (file : RawFile) (junk : Junk) : Buf := (file.readInto 0 52 junk.header).getD junk.header

def Magic (file : RawFile) (junk : Junk) : Prop :=
  file.header junk 0 = 0x7f ∧ file.header junk 1 = 0x45 ∧ file.header junk 2 = 0x4c ∧ file.header junk 3 =
    0x46

instance (file : RawFile) (junk : Junk) : Decidable (file.Magic junk) := inferInstanceAs (Decidable (_ ∧ _))

/-- The rounds of each loop over the program headers. -/
def phnum (file : RawFile) (junk : Junk) : ℕ := if (file.header junk).u16 42 =
    0 then 0 else (file.header junk).u16 44

def phdr (file : RawFile) (junk : Junk) (loop round : ℕ) : Option Phdr :=
  (file.readInto (((file.header junk).u32 28 + round * (file.header junk).u16 42) % 2 ^ 32) 32
    (junk.phdr loop round)).map Phdr.parse

def phdrs (file : RawFile) (junk : Junk) (loop : ℕ) : Option (List Phdr) :=
    (List.range (file.phnum junk)).mapM (file.phdr junk loop)

/-- The first loop comes to a `PT_DYNAMIC` header. -/
def Dynamic (file : RawFile) (junk : Junk) : Prop := ∃ k < file.phnum junk,
  (∀ i < k, (file.phdr junk 0 i).isSome) ∧ ∃ ph ∈ file.phdr junk 0 k, ph.pType = ptDynamic

instance (file : RawFile) (junk : Junk) : Decidable (file.Dynamic junk) := inferInstanceAs
    (Decidable (∃ k < _, _ ∧ ∃ ph ∈ _, _))

end RawFile

/-- `exec_elf`, with the contents of its variables at each depth of the recursion. -/
def execRaw (ldSo : Option RawFile) (name : List UInt8) (env : List (List UInt8)) (dir : ℕ) (image : Image)
    (s : Mmu) (junk : ℕ → Junk) :
    (fuel depth : ℕ) → RawFile → (argv : List (List UInt8)) → Option (Option Entered)
  | 0, _, _, _ => none
  | fuel + 1, depth, file, argv =>
    if ¬ file.Magic (junk depth) then some none
    else if file.Dynamic (junk depth) then
      match ldSo with
      | none => some none
      | some interpreter => execRaw ldSo name env dir image s junk fuel (depth + 1) interpreter
        (interpreterArgs name argv)
    else do
      let (baseAddr, endAddr) := imageBounds (← file.phdrs (junk depth) 1)
      let image := { image with entry := baseAddr, size := (endAddr + 2 ^ 32 - baseAddr) % 2 ^ 32 }
      let s ← (loadSegments file dir (← file.phdrs (junk depth) 2) (s.releaseDirectoryForExec dir)).2
      let e ← enterImage dir ((file.header (junk depth)).u32 24) argv env image s
      return some e

/-! ### The blocks of a call -/

def copyBlock (file : RawFile) (ph : Phdr) : Block :=
  match file.read ph.pOffset ph.pFilesz with
  | some (before, bs) => .bytes (inFront ph.pVaddr before) bs
  | none => .endless

def segmentBlocks (file : RawFile) (phs : List Phdr) : List Block :=
  (phs.filter (·.pType = ptLoad)).flatMap fun ph =>
    [.range ph.pVaddr ((ph.pVaddr + ph.pMemsz) % 2 ^ 32), copyBlock file ph,
      .bytes ((ph.pVaddr + ph.pFilesz) % 2 ^ 32) (List.replicate (ph.pMemsz - ph.pFilesz) 0)]

def stringBlocks : (table : ℕ) → List (List UInt8) → (heap : ℕ) → List Block
  | _, [], _ => []
  | table, string :: strings, heap =>
    [.range heap ((heap + (string.length + 1) + 0x1000) % 2 ^ 32),
      .bytes table (Buf.bytesOf heap |> fun b => [b 0, b 1, b 2, b 3]),
      .bytes heap (string ++ [0])] ++ stringBlocks ((table + 4) % 2 ^ 32) strings
        ((heap + (string.length + 1)) % 2 ^ 32)

def stringsEnd (heap : ℕ) (strings : List (List UInt8)) : ℕ :=
  strings.foldl (fun heap string => (heap + (string.length + 1)) % 2 ^ 32) heap

def argumentBlocks (argv env : List (List UInt8)) : List Block :=
  let env_ := (0 + 4 * (argv.length + 1)) % 2 ^ 32
  let auxvPtr := (env_ + 4 * (env.length + 1)) % 2 ^ 32
  let heap := (auxvPtr + 16) % 2 ^ 32
  [.page 0] ++ (stringBlocks 0 argv heap ++ ([.bytes ((0 + 4 * argv.length) % 2 ^ 32) [0, 0, 0, 0]] ++
    (stringBlocks env_ env (stringsEnd heap argv) ++
      [.bytes ((env_ + 4 * env.length) % 2 ^ 32) [0, 0, 0, 0], .bytes auxvPtr auxv])))

def callBlocks (file : RawFile) (phs : List Phdr) (argv env : List (List UInt8)) : List Block :=
  segmentBlocks file phs ++ argumentBlocks argv env

theorem runBlocks_append (dir : ℕ) (bs bs' : List Block) (s : Mmu) : runBlocks dir (bs ++ bs') s =
    (runBlocks dir bs s).bind (runBlocks dir bs') :=
  List.foldlM_append

theorem runBlocks_cons (dir : ℕ) (b : Block) (bs : List Block) (s : Mmu) : runBlocks dir (b :: bs) s =
    (b.run dir s).bind (runBlocks dir bs) :=
  List.foldlM_cons

theorem copySegment_eq_blocks (file : RawFile) (dir : ℕ) (ph : Phdr) (s : Mmu) : copySegment file dir ph s =
    runBlocks dir [copyBlock file ph,
      .bytes ((ph.pVaddr + ph.pFilesz) % 2 ^ 32) (List.replicate (ph.pMemsz - ph.pFilesz) 0)] s := by
  unfold copySegment copyBlock
  cases file.read ph.pOffset ph.pFilesz with
  | none => rfl
  | some r =>
    simp only [runBlocks_cons, Option.bind_eq_bind, Option.bind_some]
    exact Option.bind_congr fun s' _ => (Option.bind_fun_some _).symm

theorem loadSegments_eq_blocks (file : RawFile) (dir : ℕ) (phs : List Phdr) : ∀ s,
    (loadSegments file dir phs s).2 = runBlocks dir (segmentBlocks file phs) s := by
  induction phs with
  | nil => exact fun _ => rfl
  | cons ph phs ih =>
    intro s
    by_cases ht : ph.pType = ptLoad
    · have hblocks : segmentBlocks file (ph :: phs) = .range ph.pVaddr ((ph.pVaddr + ph.pMemsz) % 2 ^ 32) ::
        ([copyBlock file ph,
          .bytes ((ph.pVaddr + ph.pFilesz) % 2 ^ 32) (List.replicate (ph.pMemsz - ph.pFilesz) 0)] ++
            segmentBlocks file phs) := by
        simp [segmentBlocks, ht]
      rw [hblocks, runBlocks_cons, loadSegments, if_pos ht]
      show _ = (s.allocRange dir ((ph.pVaddr + ph.pMemsz) % 2 ^ 32) rounds ph.pVaddr).bind _
      cases s.allocRange dir ((ph.pVaddr + ph.pMemsz) % 2 ^ 32) rounds ph.pVaddr with
      | none => rfl
      | some s₁ =>
        rw [Option.bind_some, runBlocks_append, ← copySegment_eq_blocks]
        dsimp only
        cases copySegment file dir ph s₁ with
        | none => rfl
        | some s₂ => exact ih s₂
    · have hblocks : segmentBlocks file (ph :: phs) = segmentBlocks file phs := by simp [segmentBlocks, ht]
      rw [loadSegments, if_neg ht, hblocks]
      exact ih s

theorem placeStrings_eq_blocks (dir : ℕ) (strings : List (List UInt8)) : ∀ (table heap : ℕ) (s : Mmu),
    placeStrings dir table strings heap s = (runBlocks dir (stringBlocks table strings heap) s).map
      (stringsEnd heap strings, ·) := by
  induction strings with
  | nil => exact fun _ _ _ => rfl
  | cons string strings ih =>
    intro table heap s
    simp only [placeStrings, stringBlocks, List.cons_append, List.nil_append, runBlocks_cons,
      Option.bind_eq_bind, Option.map_bind, Function.comp_def, ih]
    rfl

theorem placeArguments_eq_blocks (dir : ℕ) (argv env : List (List UInt8)) (image : Image)
    (hentry : image.entry = 0)
    (hsize : image.size = 0) : ∃ heap, ∀ s, placeArguments dir argv env image s =
      (runBlocks dir (argumentBlocks argv env) s).map (0, heap, ·) := by
  have hzero : pageUp ((image.entry + image.size) % 2 ^ 32) = 0 := by
    rw [hentry, hsize]
    rfl
  refine ⟨stringsEnd
    (stringsEnd ((((0 + 4 * (argv.length + 1)) % 2 ^ 32 + 4 * (env.length + 1)) % 2 ^ 32 + 16) % 2 ^ 32) argv)
    env,
    fun s => ?_⟩
  simp only [placeArguments, hzero, argumentBlocks, placeStrings_eq_blocks, runBlocks_append, runBlocks_cons,
    Option.bind_eq_bind,
    Option.bind_map, Option.map_bind, Function.comp_def, List.cons_append, List.nil_append]
  simp only [Option.map_eq_bind]
  rfl

theorem enterImage_isSome (dir entry : ℕ) (argv env : List (List UInt8)) (image : Image) (s : Mmu) :
    (enterImage dir entry argv env image s).isSome = (runBlocks dir (argumentBlocks argv env) s).isSome := by
  have hstack : s.allocRange dir userStackTop rounds userStackBottom = some s := rfl
  obtain ⟨heap, hplace⟩ := placeArguments_eq_blocks dir argv env
    { image with entry := 0, heap := 0, heapActual := 0, userStack := 0, size := 0, shmHeap := shmStart } rfl
      rfl
  simp only [enterImage, hstack, hplace, Option.bind_eq_bind, Option.bind_some]
  cases runBlocks dir (argumentBlocks argv env) s with
  | none => rfl
  | some s' => rfl

theorem stringBlocks_small (strings : List (List UInt8)) : ∀ {table heap : ℕ}, table < 2 ^ 32 →
    heap < 2 ^ 32 →
    ∀ b ∈ stringBlocks table strings heap, b.Small := by
  induction strings with
  | nil => exact fun _ _ b hb => absurd hb List.not_mem_nil
  | cons string strings ih =>
    intro table heap ht hh b hb
    rw [stringBlocks, List.mem_append] at hb
    obtain hb | hb := hb
    · simp only [List.mem_cons, List.not_mem_nil, or_false] at hb
      obtain rfl | rfl | rfl := hb
      · exact ⟨hh, Nat.mod_lt _ (by decide)⟩
      · exact ht
      · exact hh
    · exact ih (Nat.mod_lt _ (by decide)) (Nat.mod_lt _ (by decide)) b hb

theorem stringsEnd_lt (strings : List (List UInt8)) : ∀ {heap : ℕ}, heap < 2 ^ 32 →
    stringsEnd heap strings < 2 ^ 32 := by
  induction strings with
  | nil => exact fun h => h
  | cons string strings ih => exact fun _ => ih (Nat.mod_lt _ (by decide))

theorem copyBlock_small (file : RawFile) (ph : Phdr) : (copyBlock file ph).Small := by
  unfold copyBlock
  cases file.read ph.pOffset ph.pFilesz with
  | none => trivial
  | some r => exact inFront_lt _ _

section

variable {α β : Type} {f : α → Option β} {l : List α}

theorem mapM_isSome_iff (f : α → Option β) (l : List α) : (l.mapM f).isSome ↔ ∀ a ∈ l, (f a).isSome := by
  induction l with
  | nil => simp
  | cons a l ih =>
    rw [List.mapM_cons, List.forall_mem_cons, ← ih]
    cases f a with
    | none => simp
    | some b => cases l.mapM f <;> simp

theorem mapM_eq_some_map {g : α → β} (h : ∀ a ∈ l, f a = some (g a)) : l.mapM f = some (l.map g) := by
  induction l with
  | nil => rfl
  | cons a l ih =>
    obtain ⟨ha, hl⟩ := List.forall_mem_cons.mp h
    rw [List.mapM_cons, ha, ih hl]
    rfl

theorem exists_of_mem_mapM : ∀ {r : List β}, l.mapM f = some r → ∀ b ∈ r, ∃ a ∈ l, f a = some b := by
  induction l with
  | nil =>
    intro r h b hb
    obtain rfl := Option.some.inj h
    exact absurd hb List.not_mem_nil
  | cons a l ih =>
    intro r h b hb
    rw [List.mapM_cons] at h
    obtain ⟨b₁, h₁, h⟩ := bind_eq_some_iff.mp h
    obtain ⟨r₁, hr, h⟩ := bind_eq_some_iff.mp h
    obtain rfl := Option.some.inj h
    obtain rfl | hb := List.mem_cons.mp hb
    · exact ⟨a, List.mem_cons_self, h₁⟩
    · obtain ⟨a', ha', he⟩ := ih hr b hb
      exact ⟨a', List.mem_cons_of_mem _ ha', he⟩

end

/-- Whether a read stays in its variable has nothing to do with what was there before. -/
theorem readInto_isSome (file : RawFile) (offset size : ℕ) (junk junk' : Buf) :
    (file.readInto offset size junk).isSome = (file.readInto offset size junk').isSome := by
  unfold RawFile.readInto
  cases file.read offset size with
  | none => rfl
  | some r =>
    by_cases h : r.2 = [] ∨ r.1 = 0 ∧ r.2.length ≤ size
    · simp [h]
    · simp [h]

theorem phdrs_isSome (file : RawFile) (junk : Junk) (loop loop' : ℕ) : (file.phdrs junk loop).isSome ↔
    (file.phdrs junk loop').isSome := by
  unfold RawFile.phdrs
  rw [mapM_isSome_iff, mapM_isSome_iff]
  apply forall₂_congr
  intro k _
  rw [RawFile.phdr, RawFile.phdr, Option.isSome_map, Option.isSome_map,
    readInto_isSome file _ 32 (junk.phdr loop k) (junk.phdr loop' k)]

theorem callBlocks_small {file : RawFile} {junk : Junk} {loop : ℕ} {phs : List Phdr}
    (hphs : file.phdrs junk loop = some phs)
    (argv env : List (List UInt8)) : ∀ b ∈ callBlocks file phs argv env, b.Small := by
  intro b hb
  have hmod : ∀ n, n % 2 ^ 32 < 2 ^ 32 := fun n => Nat.mod_lt n (by decide)
  obtain hb | hb := List.mem_append.mp hb
  · obtain ⟨ph, hph, hb⟩ := List.mem_flatMap.mp hb
    obtain ⟨k, -, hk⟩ := exists_of_mem_mapM hphs ph (List.mem_filter.mp hph).1
    obtain ⟨buf, -, rfl⟩ := Option.map_eq_some_iff.mp hk
    simp only [List.mem_cons, List.not_mem_nil, or_false] at hb
    obtain rfl | rfl | rfl := hb
    · exact ⟨Buf.u32_lt _ _, hmod _⟩
    · exact copyBlock_small file _
    · exact hmod _
  · simp only [argumentBlocks, List.mem_append, List.mem_cons, List.not_mem_nil, or_false] at hb
    obtain rfl | hb | rfl | hb | rfl | rfl := hb
    · exact Nat.two_pow_pos 32
    · exact stringBlocks_small argv (Nat.two_pow_pos 32) (hmod _) b hb
    · exact hmod _
    · exact stringBlocks_small env (hmod _) (stringsEnd_lt argv (hmod _)) b hb
    · exact hmod _
    · exact hmod _

/-! ### The end of a call -/

section

variable (ldSo : Option RawFile) (name : List UInt8) (env : List (List UInt8)) (dir : ℕ) (image : Image)
    (s : Mmu) (junk : ℕ → Junk)

def fileAt (file : RawFile) : ℕ → Option RawFile
  | 0 => some file
  | _ + 1 => ldSo

def argvAt (argv : List (List UInt8)) : ℕ → List (List UInt8)
  | 0 => argv
  | depth + 1 => argvAt (interpreterArgs name argv) depth

def Passes (file : RawFile) (j : Junk) : Prop := file.Magic j ∧ file.Dynamic j

/-- The call returns -1, or it can read its headers and gets to user mode. -/
def Stops (file : RawFile) (j : Junk) (argv : List (List UInt8)) : Prop :=
  ¬ file.Magic j ∨ ¬ file.Dynamic j ∧ ∃ phs ∈ file.phdrs j 2,
    BlocksEnd (s.Kept dir) (callBlocks file phs argv env)

def ChainEnds (depth : ℕ) (file : RawFile) (argv : List (List UInt8)) (n : ℕ) : Prop :=
  (∀ k < n, ∀ f, fileAt ldSo file k = some f → Passes f (junk (depth + k))) ∧
    ∀ f, fileAt ldSo file n = some f → Stops env dir s f (junk (depth + n)) (argvAt name argv n)

variable {ldSo name env dir image s junk} {file interpreter : RawFile} {argv : List (List UInt8)}
    {fuel depth n : ℕ}

theorem execRaw_refused (hm : ¬ file.Magic (junk depth)) : execRaw ldSo name env dir image s junk
    (fuel + 1) depth file argv = some none := by
  rw [execRaw.eq_def]
  exact if_pos hm

theorem execRaw_noInterpreter (h : Passes file (junk depth)) : execRaw none name env dir image s junk
    (fuel + 1) depth file argv = some none := by
  rw [execRaw.eq_def]
  exact (if_neg (not_not.mpr h.1)).trans (if_pos h.2)

theorem execRaw_interpreter (h : Passes file (junk depth)) :
    execRaw (some interpreter) name env dir image s junk (fuel + 1) depth file argv =
      execRaw (some interpreter) name env dir image s junk fuel (depth + 1) interpreter
        (interpreterArgs name argv) := by
  rw [execRaw.eq_def]
  exact (if_neg (not_not.mpr h.1)).trans (if_pos h.2)

theorem execRaw_load (hs : s.Loadable dir) (hm : file.Magic (junk depth)) (hd : ¬ file.Dynamic (junk depth)) :
    (execRaw ldSo name env dir image s junk (fuel + 1) depth file argv).isSome ↔
      ∃ phs ∈ file.phdrs (junk depth) 2, BlocksEnd (s.Kept dir) (callBlocks file phs argv env) := by
  obtain ⟨hready, hkept⟩ := Mmu.releaseDirectoryForExec_ready hs
  rw [execRaw.eq_def]
  dsimp only
  rw [if_neg (not_not.mpr hm), if_neg hd]
  have hloops := phdrs_isSome file (junk depth) 1 2
  cases h₂ : file.phdrs (junk depth) 2 with
  | none =>
    rw [h₂] at hloops
    cases h₁ : file.phdrs (junk depth) 1 with
    | none => simp
    | some phs => simp [h₁] at hloops
  | some phs =>
    rw [h₂] at hloops
    obtain ⟨phs₁, h₁⟩ := isSome_iff_exists.mp (hloops.mpr rfl)
    have hsmall := callBlocks_small h₂ argv env
    simp only [Option.mem_def, Option.some.injEq, exists_eq_left']
    rw [← blocksEnd_congr hsmall hkept, ← runBlocks_isSome_iff _ hready hsmall, callBlocks,
      runBlocks_append, ← loadSegments_eq_blocks, h₁]
    simp only [Option.bind_eq_bind, Option.bind_some]
    cases (loadSegments file dir phs (s.releaseDirectoryForExec dir)).2 with
    | none => rfl
    | some s₁ =>
      simp only [Option.bind_some]
      rw [← enterImage_isSome dir ((file.header (junk depth)).u32 24) argv env { image with
        entry := (imageBounds phs₁).1
        size := ((imageBounds phs₁).2 + 2 ^ 32 - (imageBounds phs₁).1) % 2 ^ 32 }]
      generalize enterImage dir _ argv env _ s₁ = e
      cases e with
      | none => rfl
      | some e => rfl

theorem fileAt_interpreter (file : RawFile) (h : ldSo = some interpreter) (n : ℕ) :
    fileAt ldSo interpreter n = fileAt ldSo file (n + 1) := by
  cases n with
  | zero => exact h.symm
  | succ n => rfl

theorem chainEnds_succ (h : ldSo = some interpreter) (hp : Passes file (junk depth)) :
    ChainEnds ldSo name env dir s junk depth file argv (n + 1) ↔
      ChainEnds ldSo name env dir s junk (depth + 1) interpreter (interpreterArgs name argv) n := by
  have hdepth : ∀ k, depth + 1 + k = depth + (k + 1) := fun k => by omega
  unfold ChainEnds
  refine and_congr ⟨fun hall k hk f hf => ?_, fun hall k hk f hf => ?_⟩ ?_
  · rw [hdepth]
    exact hall (k + 1) (Nat.succ_lt_succ hk) f (fileAt_interpreter file h k ▸ hf)
  · cases k with
    | zero => exact some.inj hf ▸ hp
    | succ k =>
      rw [← hdepth]
      exact hall k (Nat.lt_of_succ_lt_succ hk) f ((fileAt_interpreter file h k).trans hf)
  · rw [fileAt_interpreter file h, hdepth]
    rfl

theorem chainEnds_zero : ChainEnds ldSo name env dir s junk depth file argv 0 ↔ Stops env dir s file
    (junk depth) argv := by
  constructor
  · intro h
    exact h.2 file rfl
  · intro h
    exact ⟨fun k hk => absurd hk (Nat.not_lt_zero k), fun f hf => some.inj hf ▸ h⟩

theorem execRaw_chain (hs : s.Loadable dir) (fuel : ℕ) :
    ∀ {depth : ℕ} {file : RawFile} {argv : List (List UInt8)},
    (execRaw ldSo name env dir image s junk fuel depth file argv).isSome → ∃ n,
      ChainEnds ldSo name env dir s junk depth file argv n := by
  induction fuel with
  | zero => exact fun h => absurd h (by simp [execRaw])
  | succ fuel ih =>
    intro depth file argv h
    by_cases hm : file.Magic (junk depth)
    · by_cases hd : file.Dynamic (junk depth)
      · cases ldSo with
        | none =>
          refine ⟨1, fun k hk f hf => ?_, fun f hf => absurd hf (by simp [fileAt])⟩
          obtain rfl := Nat.lt_one_iff.mp hk
          exact some.inj hf ▸ ⟨hm, hd⟩
        | some interpreter =>
          rw [execRaw_interpreter ⟨hm, hd⟩] at h
          obtain ⟨n, hn⟩ := ih h
          exact ⟨n + 1, (chainEnds_succ rfl ⟨hm, hd⟩).mpr hn⟩
      · exact ⟨0, chainEnds_zero.mpr (.inr ⟨hd, (execRaw_load hs hm hd).mp h⟩)⟩
    · exact ⟨0, chainEnds_zero.mpr (.inl hm)⟩

theorem chain_execRaw (hs : s.Loadable dir) (n : ℕ) :
    ∀ {depth : ℕ} {file : RawFile} {argv : List (List UInt8)},
    ChainEnds ldSo name env dir s junk depth file argv n → ∃ fuel,
      (execRaw ldSo name env dir image s junk fuel depth file argv).isSome := by
  induction n with
  | zero =>
    intro depth file argv h
    by_cases hm : file.Magic (junk depth)
    · obtain ⟨hd, hb⟩ := (chainEnds_zero.mp h).resolve_left (not_not.mpr hm)
      exact ⟨1, (execRaw_load hs hm hd).mpr hb⟩
    · exact ⟨1, by rw [execRaw_refused hm]; rfl⟩
  | succ n ih =>
    intro depth file argv h
    have hp : Passes file (junk depth) := h.1 0 (Nat.succ_pos n) file rfl
    cases ldSo with
    | none => exact ⟨1, by rw [execRaw_noInterpreter hp]; rfl⟩
    | some interpreter =>
      obtain ⟨fuel, hf⟩ := ih ((chainEnds_succ rfl hp).mp h)
      exact ⟨fuel + 1, by rwa [execRaw_interpreter hp]⟩

/-- A dynamic interpreter is opened again and again. -/
theorem execRaw_endless (hi : ∀ j, Passes interpreter j) (fuel : ℕ) :
    ∀ {depth : ℕ} {argv : List (List UInt8)},
    execRaw (some interpreter) name env dir image s junk fuel depth interpreter argv = none := by
  induction fuel with
  | zero => exact rfl
  | succ fuel ih =>
    intro depth argv
    rw [execRaw_interpreter (hi _)]
    exact ih

end

/-! ### Complete files -/

section

variable (file : ElfFile) (j : Junk)

theorem readInto_inside (file : RawFile) (hlt : file.length < 2 ^ 32) {offset size : ℕ}
    (h : offset + size ≤ file.length) (junk : Buf) :
    ∃ b, file.readInto offset size junk = some b ∧ ∀ i < size, b i = file.bytes (offset + i) := by
  have hstop : file.stop offset size = offset + size := by
    unfold RawFile.stop
    split_ifs <;> omega
  have hread : file.read offset size = some (0, (List.range size).map fun i => file.bytes (offset + i)) := by
    unfold RawFile.read
    rw [hstop, if_pos (Nat.le_add_right _ _), Nat.add_sub_cancel_left]
  refine ⟨fun i => ((List.range size).map fun i => file.bytes (offset + i)).getD i (junk i), ?_, fun i hi =>
    ?_⟩
  · unfold RawFile.readInto
    rw [hread, Option.bind_eq_bind, Option.bind_some]
    exact if_pos (.inr ⟨rfl, by simp⟩)
  · simp [List.getD_eq_getElem?_getD, hi]

theorem header_raw {i : ℕ} (hi : i < 52) : file.toRawFile.header j i = file.bytes i := by
  obtain ⟨b, hb, hbytes⟩ :=
    readInto_inside file.toRawFile file.length_lt ((Nat.zero_add 52).trans_le file.header) j.header
  rw [RawFile.header, hb, Option.getD_some, hbytes i hi, Nat.zero_add]

theorem header_sameOn {o n : ℕ} (h : o + n ≤ 52) : Buf.SameOn (file.toRawFile.header j) file.bytes o n := by
  intro i _ hi
  exact header_raw file j (by omega)

theorem phnum_raw : file.toRawFile.phnum j = if file.ePhentsize = 0 then 0 else file.ePhnum := by
  have h42 : (file.toRawFile.header j).u16 42 = file.ePhentsize :=
    Buf.u16_congr (header_sameOn file j (by decide))
  have h44 : (file.toRawFile.header j).u16 44 = file.ePhnum :=
    Buf.u16_congr (header_sameOn file j (by decide))
  rw [RawFile.phnum, h42, h44]

theorem phdr_raw (loop : ℕ) {k : ℕ} (hk : k < file.toRawFile.phnum j) : file.toRawFile.phdr j loop k =
    some (Phdr.parse (file.bytes.drop (file.ePhoff + k * file.ePhentsize))) := by
  have h28 : (file.toRawFile.header j).u32 28 = file.ePhoff :=
    Buf.u32_congr (header_sameOn file j (by decide))
  have h42 : (file.toRawFile.header j).u16 42 = file.ePhentsize :=
    Buf.u16_congr (header_sameOn file j (by decide))
  -- the header is in the file, and its offset does not wrap
  have hin : file.ePhoff + k * file.ePhentsize + 32 ≤ file.length := by
    rw [phnum_raw] at hk
    split_ifs at hk with h0
    · exact absurd hk (Nat.not_lt_zero k)
    · exact file.programHeaders k hk h0
  have hlt := file.length_lt
  obtain ⟨b, hb, hbytes⟩ := readInto_inside file.toRawFile hlt hin (j.phdr loop k)
  rw [RawFile.phdr, h28, h42, Nat.mod_eq_of_lt (show file.ePhoff + k * file.ePhentsize < 2 ^ 32 by omega), hb,
    Option.map_some]
  have hsame : ∀ {o}, o + 4 ≤ 32 → Buf.SameOn b (file.bytes.drop (file.ePhoff + k * file.ePhentsize)) o
    4 := by
    intro o ho i _ hi
    exact hbytes i (by omega)
  unfold Phdr.parse
  rw [Buf.u32_congr (hsame (by decide)), Buf.u32_congr (hsame (by decide)), Buf.u32_congr (hsame (by decide)),
    Buf.u32_congr (hsame (by decide)), Buf.u32_congr (hsame (by decide))]

theorem phdrs_raw (loop : ℕ) : file.toRawFile.phdrs j loop = some file.phdrs := by
  rw [RawFile.phdrs, mapM_eq_some_map fun k hk => phdr_raw file j loop (List.mem_range.mp hk), phnum_raw]
  rfl

theorem magic_raw : file.toRawFile.Magic j ↔ file.Magic := by
  unfold RawFile.Magic ElfFile.Magic
  rw [header_raw file j (by decide), header_raw file j (by decide), header_raw file j (by decide),
    header_raw file j (by decide)]

theorem dynamic_raw : file.toRawFile.Dynamic j ↔ file.Dynamic := by
  unfold RawFile.Dynamic ElfFile.Dynamic ElfFile.phdrs
  rw [← phnum_raw file j]
  simp only [List.mem_map, List.mem_range]
  constructor
  · rintro ⟨k, hk, -, ph, hph, ht⟩
    rw [phdr_raw file j 0 hk] at hph
    exact ⟨ph, ⟨k, hk, Option.some.inj hph⟩, ht⟩
  · rintro ⟨ph, ⟨k, hk, rfl⟩, ht⟩
    refine ⟨k, hk, fun i hi => ?_, _, phdr_raw file j 0 hk, ht⟩
    rw [phdr_raw file j 0 (hi.trans hk)]
    rfl

end

/-- The loader of complete files is the loader of all files. -/
theorem execElf_eq_raw (ldSo : Option ElfFile) (name : List UInt8) (env : List (List UInt8)) (dir : ℕ)
    (image : Image) (s : Mmu)
    (junk : ℕ → Junk) (fuel : ℕ) : ∀ (depth : ℕ) (file : ElfFile) (argv : List (List UInt8)),
      execElf ldSo name env dir image s fuel file argv =
        execRaw (ldSo.map ElfFile.toRawFile) name env dir image s junk fuel depth file.toRawFile argv := by
  induction fuel with
  | zero => exact fun _ _ _ => rfl
  | succ fuel ih =>
    intro depth file argv
    by_cases hm : file.Magic
    · by_cases hd : file.Dynamic
      · have hp : Passes file.toRawFile (junk depth) :=
          ⟨(magic_raw file _).mpr hm, (dynamic_raw file _).mpr hd⟩
        cases ldSo with
        | none =>
          rw [Option.map_none, execRaw_noInterpreter hp, execElf.eq_def]
          exact (if_neg (not_not.mpr hm)).trans (if_pos hd)
        | some interpreter =>
          rw [Option.map_some, execRaw_interpreter hp, execElf.eq_def]
          exact ((if_neg (not_not.mpr hm)).trans (if_pos hd)).trans (ih (depth + 1) interpreter _)
      · rw [execElf.eq_def, execRaw.eq_def]
        dsimp only
        have h24 : (file.toRawFile.header (junk depth)).u32 24 = file.eEntry :=
          Buf.u32_congr (header_sameOn file _ (by decide))
        rw [if_neg (not_not.mpr hm), if_neg hd, if_neg (not_not.mpr ((magic_raw file _).mpr hm)),
          if_neg fun hn => hd ((dynamic_raw file _).mp hn), phdrs_raw, phdrs_raw, h24]
        rfl
    · rw [execRaw_refused fun hn => hm ((magic_raw file _).mp hn), execElf.eq_def]
      exact if_pos hm

def noJunk : Junk := ⟨fun _ => 0, fun _ _ _ => 0⟩

def newImage : Image := ⟨0, 0, 0, 0, 0, 0, 0⟩

theorem phdrs_oneSegment : (oneSegment 0x8048000 0x10).toRawFile.phdrs noJunk 2 =
    some [⟨ptLoad, 0, 0x8048000, 0, 0x10⟩] := by
  decide +kernel

theorem callBlocks_oneSegment : callBlocks (oneSegment 0x8048000 0x10).toRawFile
    [⟨ptLoad, 0, 0x8048000, 0, 0x10⟩] [] [] =
    [.range 0x8048000 0x8048010, .bytes 0x8048000 [], .bytes 0x8048000 (List.replicate 16 0), .page 0,
      .bytes 0 [0, 0, 0, 0], .bytes 4 [0, 0, 0, 0], .bytes 8 auxv] := by
  decide +kernel

def dynamicBytes : Buf := (fileBytes 0 0).setU32 52 ptDynamic

theorem dynamicBytes_headers : ∀ k < dynamicBytes.u16 44, dynamicBytes.u16 42 ≠ 0 →
    dynamicBytes.u32 28 + k * dynamicBytes.u16 42 + 32 ≤ 200 := by decide +kernel

def dynamicFile : ElfFile :=
  { oneSegment 0 0 with bytes := dynamicBytes, programHeaders := dynamicBytes_headers }

theorem dynamicFile_passes (j : Junk) : Passes dynamicFile.toRawFile j :=
  ⟨(magic_raw _ j).mpr (by decide +kernel), (dynamic_raw _ j).mpr (by decide +kernel)⟩

end ChiffOS.Elf
