import ChiffOS.Lib.Bytes
import ChiffOS.Lib.Tokens
import ChiffOS.Vfs.Open

/-! `canonicalize_path` with its tokenizer and the buffer it returns, and the functions of `vfs.c` that take
the canonical path of a name apart into a directory and an entry. `symlink_fs` leaves the separator in the
name of an entry of the root. -/

namespace ChiffOS.Vfs

universe u

open List

/-! ### The tokenizer -/

/-- `strtok_r` on the string at `*saveptr`: the token, and the string behind the zero that now ends it. -/
def strtokR (str : CStr) : Option (CStr × CStr) := Tokens.next (· == pathSeparator) str

theorem strtokR_length {str pch rest : CStr} (h : strtokR str = some (pch, rest)) :
    rest.length < str.length := Tokens.next_length h

/-- `while (pch != NULL)`, with what the loop does to the stack. -/
def tokenLoop (push : List CStr → CStr → List CStr) (out : List CStr) (str : CStr) : List CStr :=
  match _h : strtokR str with
  | none => out
  | some (pch, rest) => tokenLoop push (push out pch) rest
termination_by str.length
decreasing_by exact strtokR_length _h

theorem tokens_strtokR (str : CStr) :
    tokens str = match strtokR str with
      | none => []
      | some (pch, rest) => pch :: tokens rest := by
  cases h : strtokR str with
  | none => exact Tokens.tokens_none h
  | some r => exact Tokens.tokens_some h

theorem tokenLoop_eq (push : List CStr → CStr → List CStr) (out : List CStr) (str : CStr) :
    tokenLoop push out str = (tokens str).foldl push out := by
  induction hn : str.length using Nat.strong_induction_on generalizing str out with
  | _ n ih =>
    rw [tokenLoop, tokens_strtokR]
    split
    · next h => rw [h]; rfl
    · next pch rest h =>
      rw [h, ih _ (hn ▸ strtokR_length h) _ _ rfl]
      rfl

/-! ### The buffer -/

def IsStr (b : Buf) (s : CStr) : Prop := ∀ i ≤ s.length, b i = s.getD i 0

def pathSize (out : List CStr) : ℕ := out.foldl (fun size item => size + (item.length + 1)) 0

/-- A separator and an element with its zero, at `output_offset`. -/
def putItem (s : Buf × ℕ) (item : CStr) : Buf × ℕ :=
  ((s.1.blit s.2 (fun _ => pathSeparator) 1).blit (s.2 + 1) (fun i => item.getD i 0) (item.length + 1),
    s.2 + 1 + item.length)

def canonicalizeBuf (heap : Buf) (cwd input : CStr) : Buf :=
  let out := if Relative input then tokenLoop (fun out pch => out ++ [pch]) [] cwd else []
  let out := tokenLoop pushComponent out input
  if pathSize out = 0 then (heap.blit 0 (fun _ => pathSeparator) 1).blit 1 (fun _ => 0) 1
  else (out.foldl putItem (heap, 0)).1

theorem putItem_isStr {b : Buf} {s : CStr} (hs : ∀ i < s.length, b i = s.getD i 0) (item : CStr) :
    IsStr (putItem (b, s.length) item).1 (s ++ pathSeparator :: item) := by
  intro i hi
  rw [length_append, length_cons] at hi
  dsimp only [putItem]
  rcases Nat.lt_trichotomy i s.length with hlt | rfl | hgt
  · rw [Buf.blit_out (by omega), Buf.blit_out (by omega), hs i hlt]
    simp [getElem?_append_left hlt]
  · rw [Buf.blit_out (by omega), Buf.blit_in le_rfl (by omega)]
    simp
  · obtain ⟨k, rfl⟩ : ∃ k, i = s.length + 1 + k := ⟨i - (s.length + 1), by omega⟩
    rw [Buf.blit_in (by omega) (by omega), Nat.add_sub_cancel_left, Nat.add_assoc, Nat.add_comm 1 k]
    rw [getD_eq_getElem?_getD, getD_eq_getElem?_getD, getElem?_append_right (by omega),
      Nat.add_sub_cancel_left, getElem?_cons_succ]

theorem foldl_putItem_isStr (cs : List CStr) : ∀ {b : Buf} {s : CStr}, (∀ i < s.length, b i = s.getD i 0) →
    cs ≠ [] →
    IsStr (cs.foldl putItem (b, s.length)).1 (s ++ joined cs) := by
  induction cs with
  | nil => exact fun _ h => absurd rfl h
  | cons c cs ih =>
    intro b s hs _
    have hput := putItem_isStr hs c
    rw [foldl_cons, show putItem (b, s.length) c =
      ((putItem (b, s.length) c).1, (s ++ pathSeparator :: c).length) by
      simp [putItem, Nat.add_assoc, Nat.add_comm 1], joined_cons]
    by_cases hcs : cs = []
    · subst hcs
      simpa [joined] using hput
    · have := ih (fun i hi => hput i hi.le) hcs
      simpa using this

theorem foldl_push (out cs : List CStr) : cs.foldl (fun out pch => out ++ [pch]) out = out ++ cs := by
  induction cs generalizing out with
  | nil => exact (append_nil _).symm
  | cons c cs ih => rw [foldl_cons, ih, append_assoc, singleton_append]

theorem pathSize_eq_zero {cs : List CStr} : pathSize cs = 0 ↔ cs = [] := by
  have h : ∀ (cs : List CStr) (n : ℕ), n ≤ cs.foldl (fun size item => size + (item.length + 1)) n := by
    intro cs
    induction cs with
    | nil => exact fun n => le_rfl
    | cons c cs ih => exact fun n => (Nat.le_add_right n _).trans (ih _)
  cases cs with
  | nil => exact ⟨fun _ => rfl, fun _ => rfl⟩
  | cons c cs =>
    have := h cs (0 + (c.length + 1))
    exact ⟨fun h0 => by rw [pathSize, foldl_cons] at h0; omega, fun h0 => absurd h0 (cons_ne_nil _ _)⟩

theorem canonicalizeBuf_isStr (heap : Buf) (cwd input : CStr) : IsStr (canonicalizeBuf heap cwd input)
    (canonicalizePath cwd input) := by
  have hout : tokenLoop pushComponent (if Relative input then tokenLoop (fun out pch => out ++ [pch]) [] cwd
    else []) input =
      components cwd input := by
    rw [tokenLoop_eq, tokenLoop_eq, foldl_push, nil_append]
    rfl
  rw [canonicalizeBuf, canonicalizePath, joinPath]
  simp only [hout, pathSize_eq_zero]
  split_ifs with h0
  · intro i hi
    rcases i with _ | _ | i
    · rfl
    · rfl
    · simp at hi
  · exact foldl_putItem_isStr (components cwd input) (s := []) (fun i hi => absurd hi (Nat.not_lt_zero i)) h0

/-! ### Canonical paths -/

/-- A path from the root on, without empty components, `.` and `..` and without a separator at its end. -/
structure Canonical (path : CStr) : Prop where
  starts : path.head? = some pathSeparator
  proper : path ≠ [pathSeparator] → ∀ c ∈ fields (path.drop 1), c ≠ [] ∧ c ≠ pathDot ∧ c ≠ pathUp
  trailing : path ≠ [pathSeparator] → path.getLast? ≠ some pathSeparator

def evalComponent (stack : List CStr) (c : CStr) : List CStr :=
  if c = [] ∨ c = pathDot then stack else if c = pathUp then stack.tail else c :: stack

def stackEval (cs : List CStr) : List CStr := (cs.foldl evalComponent []).reverse

def Plain (c : CStr) : Prop := Name c ∧ c ≠ pathDot ∧ c ≠ pathUp

theorem Canonical.tokens_plain {path : CStr} (h : Canonical path) : ∀ c ∈ tokens path, Plain c := by
  intro c hc
  have hname := tokens_name hc
  obtain ⟨rest, rfl⟩ : ∃ rest, path = pathSeparator :: rest := by
    cases path with
    | nil => cases h.starts
    | cons x rest => exact ⟨rest, by rw [Option.some.inj h.starts]⟩
  rw [tokens, fields_cons, if_pos rfl, filter_cons_of_neg (by simp)] at hc
  by_cases hroot : pathSeparator :: rest = [pathSeparator]
  · rw [(List.cons.inj hroot).2] at hc
    simp [fields] at hc
  · exact ⟨hname, (h.proper hroot c (mem_filter.mp hc).1).2⟩

theorem pushComponent_plain {out : List CStr} {pch : CStr} (ho : ∀ c ∈ out, Plain c) (hp : Name pch) :
    ∀ c ∈ pushComponent out pch, Plain c := by
  unfold pushComponent
  split_ifs with hup hdot
  · exact fun c hc => ho c (mem_of_mem_dropLast hc)
  · exact ho
  · intro c hc
    rcases mem_append.mp hc with hc | hc
    · exact ho c hc
    · exact mem_singleton.mp hc ▸ ⟨hp, hdot, hup⟩

theorem foldl_pushComponent_plain {cs : List CStr} (hcs : ∀ c ∈ cs, Name c) :
    ∀ {out : List CStr}, (∀ c ∈ out, Plain c) → ∀ c ∈ cs.foldl pushComponent out, Plain c := by
  induction cs with
  | nil => exact id
  | cons c cs ih =>
    exact fun ho =>
      ih (fun d hd => hcs d (mem_cons_of_mem c hd)) (pushComponent_plain ho (hcs c mem_cons_self))

theorem components_plain {cwd : CStr} (hcwd : Canonical cwd) (input : CStr) : ∀ c ∈ components cwd input,
    Plain c := by
  refine foldl_pushComponent_plain (fun c hc => tokens_name hc) ?_
  split_ifs
  · exact hcwd.tokens_plain
  · exact fun c hc => absurd hc not_mem_nil

theorem joined_append (cs ds : List CStr) : joined (cs ++ ds) = joined cs ++ joined ds := flatMap_append

theorem joined_singleton (c : CStr) : joined [c] = pathSeparator :: c := flatMap_singleton _ _

theorem canonical_joinPath {cs : List CStr} (h : ∀ c ∈ cs, Plain c) : Canonical (joinPath cs) := by
  unfold joinPath
  split_ifs with h0
  · exact ⟨rfl, fun hne => absurd rfl hne, fun hne => absurd rfl hne⟩
  · obtain ⟨c, ds, rfl⟩ := exists_cons_of_ne_nil h0
    refine ⟨rfl, fun _ d hd => ?_, fun _ hlast => ?_⟩
    · rw [fields_drop_joined fun d hd => (h d hd).1] at hd
      exact ⟨(h d hd).1.1, (h d hd).2⟩
    · obtain ⟨es, e, he⟩ := (eq_nil_or_concat' (c :: ds)).resolve_left h0
      have hname := (h e (he ▸ mem_append_right es (mem_singleton_self e))).1
      rw [he, joined_append, joined_singleton, ← singleton_append, ← append_assoc,
        getLast?_append_of_ne_nil _ hname.1] at hlast
      exact hname.2 (mem_of_getLast? hlast)

theorem foldl_evalComponent (cs stack : List CStr) :
    (cs.foldl evalComponent stack).reverse = (cs.filter (· ≠ [])).foldl pushComponent stack.reverse := by
  induction cs generalizing stack with
  | nil => rfl
  | cons c cs ih =>
    rw [foldl_cons, ih]
    by_cases h0 : c = []
    · rw [evalComponent, if_pos (.inl h0), filter_cons_of_neg (by simpa using h0)]
    · rw [filter_cons_of_pos (by simpa using h0), foldl_cons]
      congr 1
      unfold evalComponent pushComponent
      by_cases hdot : c = pathDot
      · subst hdot
        rw [if_pos (.inr rfl), if_neg (by decide), if_pos rfl]
      · rw [if_neg (not_or.mpr ⟨h0, hdot⟩), if_neg hdot]
        split_ifs
        · rw [dropLast_reverse]
        · exact reverse_cons

theorem foldl_pushComponent_of_plain {cs : List CStr} (h : ∀ c ∈ cs, Plain c) (out : List CStr) :
    cs.foldl pushComponent out = out ++ cs := by
  induction cs generalizing out with
  | nil => exact (append_nil out).symm
  | cons c cs ih =>
    have hc := h c mem_cons_self
    rw [foldl_cons, ih fun d hd => h d (mem_cons_of_mem c hd), pushComponent, if_neg hc.2.2, if_neg hc.2.1,
      append_assoc,
      singleton_append]

theorem components_eq_stackEval {cwd : CStr} (hcwd : Canonical cwd) (input : CStr) :
    components cwd input = stackEval ((if Relative input then fields cwd else []) ++ fields input) := by
  have hdir := foldl_evalComponent (if Relative input then fields cwd else []) []
  rw [stackEval, foldl_append, foldl_evalComponent, hdir, components]
  congr 1
  split_ifs
  · exact (foldl_pushComponent_of_plain hcwd.tokens_plain []).symm
  · rfl

theorem components_joinPath {cs : List CStr} (h : ∀ c ∈ cs, Plain c) (cwd : CStr) : components cwd
    (joinPath cs) = cs := by
  have habs : ¬ Relative (joinPath cs) := fun hrel => hrel.2 (canonical_joinPath h).starts
  rw [components, if_neg habs]
  have htok : tokens (joinPath cs) = cs := by
    unfold joinPath
    split_ifs with h0
    · rw [h0]
      rfl
    · exact tokens_joined fun c hc => (h c hc).1
  rw [htok, foldl_pushComponent_of_plain h, nil_append]

theorem components_up {cs : List CStr} (h : ∀ c ∈ cs, Plain c) (hne : cs ≠ []) (cwd : CStr) :
    components cwd (joined cs ++ pathSeparator :: pathUp) = cs.dropLast := by
  have hnames : ∀ c ∈ cs ++ [pathUp], Name c := by
    intro c hc
    rcases mem_append.mp hc with hc | hc
    · exact (h c hc).1
    · exact mem_singleton.mp hc ▸ ⟨by decide, by decide⟩
  have habs : ¬ Relative (joined (cs ++ [pathUp])) := by
    obtain ⟨c, ds, rfl⟩ := exists_cons_of_ne_nil hne
    exact fun hrel => hrel.2 rfl
  rw [← joined_singleton, ← joined_append, components, if_neg habs, tokens_joined hnames, foldl_append,
    foldl_pushComponent_of_plain h, nil_append]
  exact (if_pos rfl : pushComponent cs pathUp = cs.dropLast)

/-- From a canonical directory every string leads to a canonical path, the stack evaluation of its
components behind those of the directory, if it is relative; the buffer holds that path, and it leads to
itself. -/
theorem canonicalize_path_evaluates (cwd input : CStr) (hcwd : Canonical cwd) (heap : Buf) :
    IsStr (canonicalizeBuf heap cwd input) (canonicalizePath cwd input) ∧
      Canonical (canonicalizePath cwd input) ∧
    canonicalizePath cwd input =
      joinPath (stackEval ((if Relative input then fields cwd else []) ++ fields input)) ∧
    ∀ cwd', canonicalizePath cwd' (canonicalizePath cwd input) = canonicalizePath cwd input := by
  have hplain := components_plain hcwd input
  refine ⟨canonicalizeBuf_isStr heap cwd input, canonical_joinPath hplain, ?_, fun cwd' => ?_⟩
  · rw [canonicalizePath, components_eq_stackEval hcwd]
  · rw [canonicalizePath, canonicalizePath, components_joinPath hplain]

theorem canonicalize_path_above_root :
    canonicalizePath [0x2F, 0x61] [0x2E, 0x2E, 0x2F, 0x2E, 0x2E, 0x2F, 0x2F, 0x62, 0x2F, 0x2E, 0x2F, 0x63] =
      [0x2F, 0x62, 0x2F, 0x63] ∧
    Canonical [0x2F, 0x62, 0x2F, 0x63] := by
  have hpath : canonicalizePath [0x2F, 0x61] [0x2E, 0x2E, 0x2F, 0x2E, 0x2E, 0x2F, 0x2F, 0x62, 0x2F, 0x2E,
    0x2F, 0x63] =
      [0x2F, 0x62, 0x2F, 0x63] := by decide
  refine ⟨hpath,
    hpath ▸ (canonicalize_path_evaluates [0x2F, 0x61] _ ⟨rfl, fun _ => by decide, fun _ => by decide⟩ fun _ =>
    0).2.1⟩

/-! ### The directory and the entry -/

def backToSeparator (path : CStr) : ℕ → ℕ
  | 0 => 0
  | i + 1 => if path.getD (i + 1) 0 = pathSeparator then i + 2 else backToSeparator path i

def entryPath (path : CStr) : CStr := path.drop (backToSeparator path (path.length - 1))

theorem backToSeparator_append {dir c : CStr} (hc : pathSeparator ∉ c) {j : ℕ} (hj : j ≤ c.length) :
    backToSeparator (dir ++ pathSeparator :: c) (dir.length + j) = if dir =
      [] then 0 else dir.length + 1 := by
  induction j with
  | zero =>
    cases hdir : dir.length with
    | zero => rw [if_pos (length_eq_zero_iff.mp hdir), backToSeparator]
    | succ n =>
      have hsep : (dir ++ pathSeparator :: c).getD (n + 1) 0 = pathSeparator := by
        rw [← hdir]
        simp
      rw [if_neg fun h => by simp [h] at hdir, Nat.add_zero, backToSeparator, if_pos hsep]
  | succ j ih =>
    have hbyte : (dir ++ pathSeparator :: c).getD (dir.length + (j + 1)) 0 = c.get ⟨j, hj⟩ := by
      rw [getD_eq_getElem?_getD, getElem?_append_right (by omega), Nat.add_sub_cancel_left,
        getElem?_cons_succ]
      simp [Nat.lt_of_succ_le hj]
    rw [← Nat.add_assoc, backToSeparator, if_neg, ih (by omega)]
    rw [Nat.add_assoc, hbyte]
    exact fun h => hc (h ▸ get_mem _ _)

theorem entryPath_joined (cs : List CStr) {c : CStr} (hc : Name c) :
    entryPath (joined (cs ++ [c])) = if cs = [] then pathSeparator :: c else c := by
  have hback : backToSeparator (joined cs ++ pathSeparator :: c) ((joined cs).length + c.length) =
      if joined cs = [] then 0 else (joined cs).length + 1 := backToSeparator_append hc.2 le_rfl
  have hlen : (joined cs ++ pathSeparator :: c).length - 1 = (joined cs).length + c.length := by
    rw [length_append, length_cons]
    omega
  rw [entryPath, joined_append, joined_singleton, hlen, hback]
  cases cs with
  | nil => rfl
  | cons d cs =>
    rw [if_neg (show joined (d :: cs) ≠ [] from cons_ne_nil _ _), if_neg (cons_ne_nil _ _),
      drop_length_add_append]
    rfl

variable {m : Type → Type u} [Monad m] {N : Type}

/-- The functions of a directory's node that make and remove entries, missing where the pointer is null, and
its write permission. -/
structure EntryOps (m : Type → Type u) (N : Type) where
  writable : N → Bool
  create : N → Option (CStr → ℕ → m Unit)
  unlink : N → Option (CStr → m Unit)
  mkdir : N → Option (CStr → ℕ → m Unit)
  symlink : N → Option (CStr → CStr → m Unit)

namespace EntryOps

variable (ops : EntryOps m N)

def createIn (permission : ℕ) (parent : N) (entry : CStr) : m ℤ :=
  if ¬ ops.writable parent then pure (-13)
  else do
    if let some f := ops.create parent then f entry permission
    pure 0

def unlinkIn (parent : N) (entry : CStr) : m ℤ := do
  if let some f := ops.unlink parent then f entry
  pure 0

def mkdirIn (permission : ℕ) (found : Bool) (parent : N) (entry : CStr) : m ℤ := do
  if let some f := ops.mkdir parent then f entry permission
  pure (if found then -17 else 0)

def symlinkIn (target : CStr) (parent : N) (entry : CStr) : m ℤ := do
  if let some f := ops.symlink parent then f target entry
  pure 0

end EntryOps

namespace FsTree

variable (v : FsTree m N) (ops : EntryOps m N) (wdName : CStr)

def onDirectory (path entry : CStr) (failed : ℤ) (act : N → CStr → m ℤ) : m ℤ := do
  match ← v.kopen2 false wdName path 0 with
  | none => pure failed
  | some parent => act parent entry

def createFileFs (name : CStr) (permission : ℕ) : m ℤ :=
  let path := canonicalizePath wdName name
  v.onDirectory wdName (path ++ pathSeparator :: pathUp) ((entryPath path).dropWhile (· = pathSeparator)) (-1)
    (ops.createIn permission)

def unlinkFs (name : CStr) : m ℤ :=
  let path := canonicalizePath wdName name
  v.onDirectory wdName (path ++ pathSeparator :: pathUp) ((entryPath path).dropWhile (· = pathSeparator)) (-1)
    ops.unlinkIn

def mkdirFs (name : CStr) (permission : ℕ) : m ℤ := do
  let path := canonicalizePath wdName name
  let this ← v.kopen2 false wdName path 0
  v.onDirectory wdName (path ++ pathSeparator :: pathUp) ((entryPath path).dropWhile (· = pathSeparator))
    (if this.isSome then -17 else -1) (ops.mkdirIn permission this.isSome)

/-- Without the second loop, over the separators at `f_path`. -/
def symlinkFs (target name : CStr) : m ℤ :=
  let path := canonicalizePath wdName name
  v.onDirectory wdName (path ++ pathSeparator :: pathUp) (entryPath path) (-1) (ops.symlinkIn target)

theorem kopenRecur_congr (left flags : ℕ) {f g : CStr}
    (h : canonicalizePath wdName f = canonicalizePath wdName g) :
    v.kopenRecur left false f flags wdName = v.kopenRecur left false g flags wdName := by
  cases left <;> simp only [kopenRecur, h, Bool.false_eq_true, if_false]

section Split

variable {wdName} {name : CStr} (hwd : Canonical wdName) (hne : components wdName name ≠ [])
include hwd hne

theorem onDirectory_parent (entry : CStr) (failed : ℤ) (act : N → CStr → m ℤ) :
    v.onDirectory wdName (canonicalizePath wdName name ++ pathSeparator :: pathUp) entry failed act =
      v.onDirectory wdName (joinPath (components wdName name).dropLast) entry failed act := by
  have hplain := components_plain hwd name
  have hpath : canonicalizePath wdName (canonicalizePath wdName name ++ pathSeparator :: pathUp) =
      canonicalizePath wdName (joinPath (components wdName name).dropLast) := by
    refine congrArg joinPath ?_
    rw [components_joinPath fun c hc => hplain c (mem_of_mem_dropLast hc), canonicalizePath, joinPath,
      if_neg hne,
      components_up hplain hne]
  rw [onDirectory, kopen2, kopenRecur_congr v wdName _ _ hpath]
  rfl

omit [Monad m] in
theorem entryPath_canonical : entryPath (canonicalizePath wdName name) =
    if (components wdName name).length = 1 then pathSeparator :: (components wdName name).getLastD []
    else (components wdName name).getLastD [] := by
  have hplain := components_plain hwd name
  rw [canonicalizePath, joinPath, if_neg hne]
  obtain ⟨cs, c, hcs⟩ := (eq_nil_or_concat' (components wdName name)).resolve_left hne
  rw [hcs] at hplain ⊢
  rw [entryPath_joined cs (hplain c (mem_append_right cs (mem_singleton_self c))).1]
  simp

omit [Monad m] in
theorem entryPath_dropWhile : (entryPath (canonicalizePath wdName name)).dropWhile (· = pathSeparator) =
    (components wdName name).getLastD [] := by
  have hlast : (components wdName name).getLastD [] ∈ components wdName name := by
    rw [getLastD_eq_getLast?, getLast?_eq_some_getLast hne]
    exact getLast_mem hne
  obtain ⟨hne0, hsep⟩ := (components_plain hwd name _ hlast).1
  have hkeep : ((components wdName name).getLastD []).dropWhile (· = pathSeparator) =
    (components wdName name).getLastD [] := by
    obtain ⟨x, t, hx⟩ := exists_cons_of_ne_nil hne0
    rw [hx] at hsep ⊢
    exact dropWhile_cons_of_neg (by simpa using fun h : x = pathSeparator => hsep (h ▸ mem_cons_self))
  rw [entryPath_canonical hwd hne]
  split_ifs
  · rw [dropWhile_cons_of_pos (by simp), hkeep]
  · exact hkeep

end Split

/-- The functions work in the directory of the path without its last component, and with that component as
the name; for `symlink_fs` only if it is not the only one. -/
theorem path_split_iff (v : FsTree m N) (ops : EntryOps m N) (wdName name target : CStr) (permission : ℕ)
    (hwd : Canonical wdName)
    (hne : components wdName name ≠ []) :
    v.createFileFs ops wdName name permission =
      v.onDirectory wdName (joinPath (components wdName name).dropLast) ((components wdName name).getLastD [])
        (-1)
        (ops.createIn permission) ∧
    v.unlinkFs ops wdName name =
      v.onDirectory wdName (joinPath (components wdName name).dropLast) ((components wdName name).getLastD [])
        (-1) ops.unlinkIn ∧
    (v.mkdirFs ops wdName name permission = do
      let this ← v.kopen2 false wdName (canonicalizePath wdName name) 0
      v.onDirectory wdName (joinPath (components wdName name).dropLast) ((components wdName name).getLastD [])
        (if this.isSome then -17 else -1) (ops.mkdirIn permission this.isSome)) ∧
    v.symlinkFs ops wdName target name =
      v.onDirectory wdName (joinPath (components wdName name).dropLast)
        (entryPath (canonicalizePath wdName name)) (-1)
        (ops.symlinkIn target) ∧
    (entryPath (canonicalizePath wdName name) = (components wdName name).getLastD [] ↔
      2 ≤ (components wdName name).length) := by
  have hentry := entryPath_canonical hwd hne
  have hskip := entryPath_dropWhile hwd hne
  refine ⟨?_, ?_, ?_, ?_, ?_⟩
  · rw [createFileFs, onDirectory_parent v hwd hne, hskip]
  · rw [unlinkFs, onDirectory_parent v hwd hne, hskip]
  · rw [mkdirFs]
    refine congrArg _ (funext fun this => ?_)
    rw [onDirectory_parent v hwd hne, hskip]
  · rw [symlinkFs, onDirectory_parent v hwd hne]
  · have hpos := length_pos_iff.mpr hne
    rw [hentry]
    split_ifs with h1
    · exact ⟨fun h => absurd h (by simp), fun h => by omega⟩
    · exact ⟨fun _ => by omega, fun _ => rfl⟩

/-- Nothing but a root, whose functions note the names they get. -/
def bareRoot : FsTree (StateM (List CStr)) Unit :=
  ⟨(), .entry [] none [], ⟨fun _ => fsDirectory, fun _ => none, fun _ => none, fun _ => none⟩⟩

def noteNames : EntryOps (StateM (List CStr)) Unit where
  writable _ := true
  create _ := some fun name _ => modify (· ++ [name])
  unlink _ := some fun name => modify (· ++ [name])
  mkdir _ := some fun name _ => modify (· ++ [name])
  symlink _ := some fun _ name => modify (· ++ [name])

theorem path_split_below_root : entryPath (canonicalizePath [0x2F, 0x61] [0x62]) = [0x62] :=
  (path_split_iff bareRoot noteNames [0x2F, 0x61] [0x62] [] 0 ⟨rfl, fun _ => by decide, fun _ => by decide⟩
    (by decide)).2.2.2.2.mpr (by decide)

theorem symlink_keeps_separator : components [0x2F] [0x6C] = [[0x6C]] ∧
    ((bareRoot.unlinkFs noteNames [0x2F] [0x6C]).run []).2 = [[0x6C]] ∧
    ((bareRoot.symlinkFs noteNames [0x2F] [0x74] [0x6C]).run []).2 = [[0x2F, 0x6C]] := by
  refine ⟨by decide, rfl, rfl⟩

end FsTree

end ChiffOS.Vfs
