import Mathlib.Tactic

/-! Paths as C strings, and `canonicalize_path`: the components of the result are those of the directory,
for a relative path, and those of the path, where `..` takes the last one away. -/

namespace ChiffOS.Vfs

open List

abbrev CStr := List UInt8

def pathSeparator : UInt8 := 0x2F
def pathUp : CStr := [0x2E, 0x2E]
def pathDot : CStr := [0x2E]

def fields (path : CStr) : List CStr := path.splitOn pathSeparator

def tokens (path : CStr) : List CStr := (fields path).filter (· ≠ [])

/-- One round of the loop over the tokens of the path, on the stack of components. -/
def pushComponent (out : List CStr) (pch : CStr) : List CStr :=
  if pch = pathUp then out.dropLast
  else if pch = pathDot then out
  else out ++ [pch]

def Relative (input : CStr) : Prop := input ≠ [] ∧ input.head? ≠ some pathSeparator

instance : DecidablePred Relative := fun input => by unfold Relative; infer_instance

/-- The stack of `canonicalize_path` at the end. -/
def components (cwd input : CStr) : List CStr :=
  (tokens input).foldl pushComponent (if Relative input then tokens cwd else [])

def joined (cs : List CStr) : CStr := cs.flatMap fun c => pathSeparator :: c

def joinPath (cs : List CStr) : CStr := if cs = [] then [pathSeparator] else joined cs

def canonicalizePath (cwd input : CStr) : CStr := joinPath (components cwd input)

/-! ### Components and strings -/

def Name (c : CStr) : Prop := c ≠ [] ∧ pathSeparator ∉ c

theorem joined_eq_intercalate (cs : List CStr) : joined cs = [pathSeparator].intercalate ([] :: cs) := by
  induction cs with
  | nil => rfl
  | cons c cs ih =>
    rw [joined, flatMap_cons]
    change pathSeparator :: c ++ joined cs = _
    rw [ih]
    cases cs with
    | nil => simp [List.intercalate]
    | cons c' cs => simp [List.intercalate]

variable {cs : List CStr}

theorem fields_joined (h : ∀ c ∈ cs, Name c) : fields (joined cs) = [] :: cs := by
  rw [fields, joined_eq_intercalate, splitOn_intercalate]
  · intro c hc
    rcases mem_cons.mp hc with rfl | hc
    · exact not_mem_nil
    · exact (h c hc).2
  · exact cons_ne_nil _ _

theorem tokens_joined (h : ∀ c ∈ cs, Name c) : tokens (joined cs) = cs := by
  rw [tokens, fields_joined h, filter_cons_of_neg (by simp), filter_eq_self]
  intro c hc
  simpa using (h c hc).1

theorem fields_cons (x : UInt8) (path : CStr) : fields (x :: path) =
    if x = pathSeparator then [] :: fields path else (fields path).modifyHead (x :: ·) := by
  unfold fields List.splitOn
  rw [splitOnP_cons_eq_if_modifyHead]
  simp only [beq_iff_eq]

theorem separator_notMem_fields {path c : CStr} (hc : c ∈ fields path) : pathSeparator ∉ c := by
  induction path generalizing c with
  | nil =>
    obtain rfl : c = [] := by simpa [fields] using hc
    exact not_mem_nil
  | cons x path ih =>
    rw [fields_cons] at hc
    split_ifs at hc with hx
    · rcases mem_cons.mp hc with rfl | hc
      · exact not_mem_nil
      · exact ih hc
    · cases hf : fields path with
      | nil => simp [hf] at hc
      | cons f fs =>
        rw [hf, modifyHead_cons] at hc
        rcases mem_cons.mp hc with rfl | hc
        · rw [mem_cons, not_or]
          exact ⟨fun h => hx h.symm, ih (hf ▸ mem_cons_self)⟩
        · exact ih (hf ▸ mem_cons_of_mem f hc)

theorem tokens_name {path c : CStr} (hc : c ∈ tokens path) : Name c := by
  obtain ⟨hf, hne⟩ := mem_filter.mp hc
  exact ⟨by simpa using hne, separator_notMem_fields hf⟩

theorem joined_cons (c : CStr) (cs : List CStr) : joined (c :: cs) = pathSeparator :: (c ++ joined cs) := rfl

theorem joined_length_ne_one {c : CStr} (h : Name c) : (joined (c :: cs)).length ≠ 1 := by
  have := length_pos_iff.mpr h.1
  rw [joined_cons, length_cons, length_append]
  omega

theorem fields_drop_joined {c : CStr} (h : ∀ d ∈ c :: cs, Name d) :
    fields ((joined (c :: cs)).drop 1) = c :: cs := by
  have hall := fields_joined h
  rw [joined_cons, fields_cons, if_pos rfl] at hall
  exact (List.cons.inj hall).2

end ChiffOS.Vfs
