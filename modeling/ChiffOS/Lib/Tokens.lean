import Mathlib.Data.List.DropRight
import Mathlib.Tactic

/-! Lists that separators divide. A tokenizer takes one token after another from the front: it skips
separators, and it takes the one behind a token with it. -/

namespace ChiffOS.Tokens

open List

variable {α : Type} (p : α → Bool)

def tokens (l : List α) : List (List α) := (l.splitOnP p).filter (· ≠ [])

def next (l : List α) : Option (List α × List α) :=
  let l := l.dropWhile p
  if l = [] then none else some (l.takeWhile (!p ·), (l.dropWhile (!p ·)).drop 1)

/-- How a list begins for the tokenizer: only separators, or some and a token, which the list or a separator
ends. -/
inductive Front : List α → Option (List α × List α) → Prop
  | blank {l : List α} (h : ∀ x ∈ l, p x) : Front l none
  | last {pre t : List α} (hpre : ∀ x ∈ pre, p x) (hne : t ≠ []) (ht : ∀ x ∈ t, ¬ p x) :
    Front (pre ++ t) (some (t, []))
  | more {pre t rest : List α} {x : α} (hpre : ∀ x ∈ pre, p x) (hne : t ≠ []) (ht : ∀ x ∈ t, ¬ p x)
    (hx : p x) :
      Front (pre ++ (t ++ x :: rest)) (some (t, rest))

/-- A list that does not begin with a separator begins with a token. -/
theorem front_of_head {pre : List α} (hpre : ∀ x ∈ pre, p x) {x : α} (hx : ¬ p x) (l : List α) :
    Front p (pre ++ x :: l) (some ((x :: l).takeWhile (!p ·), ((x :: l).dropWhile (!p ·)).drop 1)) := by
  have hsplit : (x :: l).takeWhile (!p ·) ++ (x :: l).dropWhile (!p ·) = x :: l := takeWhile_append_dropWhile
  have hhead := head?_dropWhile_not (!p ·) (x :: l)
  have hmem : ∀ y ∈ (x :: l).takeWhile (!p ·), ¬ p y := fun y h => by simpa using mem_takeWhile_imp h
  have hne : (x :: l).takeWhile (!p ·) ≠ [] := by
    rw [takeWhile_cons_of_pos (by simpa using hx)]
    exact cons_ne_nil _ _
  generalize (x :: l).takeWhile (!p ·) = t at *
  generalize (x :: l).dropWhile (!p ·) = rest at *
  rw [← hsplit]
  cases rest with
  | nil =>
    rw [append_nil]
    exact .last hpre hne hmem
  | cons y rest => exact .more hpre hne hmem (by simpa using hhead)

theorem next_front (l : List α) : Front p l (next p l) := by
  have hpre : ∀ x ∈ l.takeWhile p, p x := fun x hx => mem_takeWhile_imp hx
  have hsplit : l.takeWhile p ++ l.dropWhile p = l := takeWhile_append_dropWhile
  have hhead := head?_dropWhile_not p l
  unfold next
  generalize l.takeWhile p = pre at *
  generalize l.dropWhile p = u at *
  subst hsplit
  cases u with
  | nil =>
    rw [append_nil]
    exact .blank hpre
  | cons x u => exact front_of_head p hpre (by simpa using hhead) u

variable {p}

/-! ### Tokens -/

theorem splitOnP_more {t : List α} (ht : ∀ x ∈ t, ¬ p x) {x : α} (hx : p x) (rest : List α) :
    (t ++ x :: rest).splitOnP p = t :: rest.splitOnP p := by
  induction t with
  | nil => rw [nil_append, splitOnP_cons_eq_if_modifyHead, if_pos hx]
  | cons y t ih =>
    rw [cons_append, splitOnP_cons_eq_if_modifyHead, if_neg (ht y mem_cons_self),
      ih fun z hz => ht z (mem_cons_of_mem _ hz), modifyHead_cons]

theorem splitOnP_last {t : List α} (ht : ∀ x ∈ t, ¬ p x) : t.splitOnP p = [t] := by
  induction t with
  | nil => rfl
  | cons y t ih =>
    rw [splitOnP_cons_eq_if_modifyHead, if_neg (ht y mem_cons_self), ih fun z hz =>
      ht z (mem_cons_of_mem _ hz),
      modifyHead_cons]

theorem tokens_skip {pre : List α} (hpre : ∀ x ∈ pre, p x) (l : List α) : tokens p (pre ++ l) =
    tokens p l := by
  induction pre with
  | nil => rfl
  | cons x pre ih =>
    rw [← ih fun y hy => hpre y (mem_cons_of_mem _ hy), cons_append, tokens, splitOnP_cons_eq_if_modifyHead,
      if_pos (hpre x mem_cons_self), filter_cons_of_neg (by simp)]
    rfl

theorem tokens_last {t : List α} (hne : t ≠ []) (ht : ∀ x ∈ t, ¬ p x) : tokens p t = [t] := by
  rw [tokens, splitOnP_last ht, filter_cons_of_pos (by simpa using hne), filter_nil]

theorem tokens_more {t : List α} (hne : t ≠ []) (ht : ∀ x ∈ t, ¬ p x) {x : α} (hx : p x) (rest : List α) :
    tokens p (t ++ x :: rest) = t :: tokens p rest := by
  rw [tokens, splitOnP_more ht hx, filter_cons_of_pos (by simpa using hne)]
  rfl

theorem tokens_blank {l : List α} (h : ∀ x ∈ l, p x) : tokens p l = [] := by
  have hskip := tokens_skip h []
  rwa [append_nil] at hskip

variable {l t rest : List α}

theorem tokens_none (h : next p l = none) : tokens p l = [] := by
  have hfront := next_front p l
  rw [h] at hfront
  cases hfront with
  | blank hl => exact tokens_blank hl

theorem tokens_some (h : next p l = some (t, rest)) : tokens p l = t :: tokens p rest := by
  have hfront := next_front p l
  rw [h] at hfront
  cases hfront with
  | last hpre hne ht => rw [tokens_skip hpre, tokens_last hne ht]; rfl
  | more hpre hne ht hx => rw [tokens_skip hpre, tokens_more hne ht hx]

theorem next_length (h : next p l = some (t, rest)) : rest.length < l.length := by
  have hfront := next_front p l
  rw [h] at hfront
  cases hfront with
  | last hpre hne ht =>
    have hpos := length_pos_iff.mpr hne
    simp only [length_append, length_nil]
    omega
  | more hpre hne ht hx =>
    simp only [length_append, length_cons]
    omega

theorem blank_of_tokens {l : List α} (h : tokens p l = []) : ∀ x ∈ l, p x := by
  have hfront := next_front p l
  cases hn : next p l with
  | none =>
    rw [hn] at hfront
    cases hfront with
    | blank hl => exact hl
  | some r => rw [tokens_some hn] at h; cases h

/-! ### One separator -/

variable [DecidableEq α] {sep : α}

theorem beq_sep (ht : sep ∉ t) : ∀ x ∈ t, ¬ (x == sep) = true := by
  rintro x hx h
  obtain rfl := eq_of_beq h
  exact ht hx

theorem notMem_sep (ht : ∀ x ∈ t, ¬ (x == sep) = true) : sep ∉ t := fun h => ht sep h (beq_self_eq_true sep)

theorem tokens_intercalate {ts : List (List α)} (h : ∀ t ∈ ts, t ≠ [] ∧ sep ∉ t) :
    tokens (· == sep) ([sep].intercalate ts) = ts := by
  induction ts with
  | nil => rfl
  | cons t ts ih =>
    have ht := h t mem_cons_self
    have hts := ih fun u hu => h u (mem_cons_of_mem _ hu)
    cases ts with
    | nil => simpa [List.intercalate] using tokens_last ht.1 (beq_sep ht.2)
    | cons u ts =>
      have hjoin : [sep].intercalate (t :: u :: ts) =
        t ++ sep :: [sep].intercalate (u :: ts) := by simp [List.intercalate]
      rw [hjoin, tokens_more ht.1 (beq_sep ht.2) (beq_self_eq_true sep), hts]

/-! ### Two separators at the end -/

omit [DecidableEq α] in
theorem suffix_concat {l : List α} {x : α} : [sep] <:+ l ++ [x] ↔ x = sep := by
  constructor
  · rintro ⟨u, hu⟩
    exact (cons.inj (append_inj' hu rfl).2).1.symm
  · rintro rfl
    exact suffix_append l [x]

omit [DecidableEq α] in
theorem not_suffix_word {l : List α} (hne : t ≠ []) (ht : sep ∉ t) : ¬ [sep] <:+ l ++ t := by
  obtain ⟨v, x, rfl⟩ := eq_nil_or_concat' t |>.resolve_left hne
  rw [← append_assoc, suffix_concat]
  rintro rfl
  exact ht (mem_append_right v mem_cons_self)

omit [DecidableEq α] in
theorem suffix_one {l : List α} (h : [sep, sep] <:+ l) : [sep] <:+ l := (suffix_cons sep [sep]).trans h

omit [DecidableEq α] in
theorem suffix_blank (hne : rest ≠ []) (hblank : ∀ x ∈ rest, x = sep) : [sep, sep] <:+ sep :: rest := by
  have hrep : rest = replicate rest.length sep := eq_replicate_of_mem hblank
  obtain ⟨n, hn⟩ := Nat.exists_eq_succ_of_ne_zero (length_pos_iff.mpr hne).ne'
  rw [hrep, hn, ← replicate_succ, show n.succ + 1 = n + 2 from rfl, ← replicate_append_replicate]
  exact suffix_append _ _

/-- Two separators at the end are in what stands behind the first separator, unless it is blank. -/
theorem suffix_rest {l : List α} (hs : [sep, sep] <:+ l ++ sep :: rest) (hword : ¬ [sep] <:+ l) :
    rest ≠ [] ∧ (tokens (· == sep) rest = [] ∨ [sep, sep] <:+ rest) := by
  obtain rfl | ⟨v, x, rfl⟩ := eq_nil_or_concat' rest
  · obtain ⟨u, hu⟩ := hs
    have hu' : (u ++ [sep]) ++ [sep] = l ++ [sep] := by rw [append_assoc]; exact hu
    exact absurd ⟨u, (append_inj' hu' rfl).1⟩ hword
  · refine ⟨by simp, ?_⟩
    have hx : x = sep := by
      have hone := suffix_one hs
      rwa [← cons_append, ← append_assoc, suffix_concat] at hone
    subst hx
    cases v with
    | nil => exact .inl (tokens_blank (by simp))
    | cons y v =>
      refine .inr (suffix_of_suffix_length_le hs ((suffix_cons _ _).trans (suffix_append l _)) ?_)
      simp

/-- Behind a token, a list ends in two separators exactly if the rest is not empty and is blank or ends so
itself. -/
theorem suffix_some (h : next (· == sep) l = some (t, rest)) :
    [sep, sep] <:+ l ↔ rest ≠ [] ∧ (tokens (· == sep) rest = [] ∨ [sep, sep] <:+ rest) := by
  have hfront := next_front (· == sep) l
  rw [h] at hfront
  cases hfront with
  | last hpre hne ht =>
    constructor
    · intro hs
      exact absurd (suffix_one hs) (not_suffix_word hne (notMem_sep ht))
    · rintro ⟨hrest, -⟩
      exact absurd rfl hrest
  | @more pre _ _ x hpre hne ht hx =>
    obtain rfl : x = sep := eq_of_beq hx
    constructor
    · intro hs
      rw [← append_assoc] at hs
      exact suffix_rest hs (not_suffix_word hne (notMem_sep ht))
    · rintro ⟨hrest, hend⟩
      have hwhole : x :: rest <:+ pre ++ (t ++ x :: rest) := (suffix_append t _).trans (suffix_append pre _)
      rcases hend with hblank | hs
      · exact (suffix_blank hrest fun y hy => eq_of_beq (blank_of_tokens hblank y hy)).trans hwhole
      · exact hs.trans ((suffix_cons x rest).trans hwhole)

omit [DecidableEq α] in
/-- Words divided by single separators end in the last word. -/
theorem suffix_intercalate (us : List (List α)) (u : List α) : u <:+ [sep].intercalate (us ++ [u]) := by
  induction us with
  | nil => simp [List.intercalate]
  | cons v us ih =>
    have hjoin : [sep].intercalate (v :: us ++ [u]) = v ++ sep :: [sep].intercalate (us ++ [u]) := by
      cases us with
      | nil => simp [List.intercalate]
      | cons w us => simp [List.intercalate]
    rw [hjoin]
    exact ih.trans ((suffix_cons sep _).trans (suffix_append v _))

omit [DecidableEq α] in
theorem not_suffix_intercalate {ts : List (List α)} (hne : ts ≠ []) (h : ∀ t ∈ ts, t ≠ [] ∧ sep ∉ t) :
    ¬ [sep, sep] <:+ [sep].intercalate ts := by
  obtain ⟨us, u, rfl⟩ := eq_nil_or_concat' ts |>.resolve_left hne
  obtain ⟨hu, hsep⟩ := h u (mem_append_right us mem_cons_self)
  obtain ⟨l, hl⟩ := suffix_intercalate us u
  rw [← hl]
  exact fun hs => not_suffix_word hu hsep (suffix_one hs)

end ChiffOS.Tokens
