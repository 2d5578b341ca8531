import Mathlib.Data.List.GetD
import Mathlib.Data.Nat.Bitwise
import ChiffOS.Lib.Tokens

/-! `strtok_r` and the functions it scans with. The string is the list of its bytes, and what is behind the
list is its final NUL; a pointer is an offset into it. `strchrnul` and `lfind` are taken to find the first
occurrence. -/

namespace ChiffOS.Kutils

/-- `for (; *c && BITOP(byteset, *(unsigned char *)c, |=); c++)`: eight words of 32 bits. -/
def byteset (c : List UInt8) : ℕ → ℕ :=
  c.foldl (fun w b => Function.update w (b.toNat / 32) (w (b.toNat / 32) ||| 1 <<< (b.toNat % 32))) fun _ => 0

def inByteset (w : ℕ → ℕ) (b : UInt8) : Bool := w (b.toNat / 32) &&& 1 <<< (b.toNat % 32) ≠ 0

def strspn (s : List UInt8) : (c : List UInt8) → ℕ
  | [] => 0
  | [x] => (s.takeWhile (· = x)).length
  | c => (s.takeWhile fun b => b ≠ 0 ∧ inByteset (byteset c) b = true).length

def strchrnul (s : List UInt8) (c : UInt8) : ℕ := (s.takeWhile fun b => b ≠ 0 ∧ b ≠ c).length

def strcspn (s : List UInt8) : (c : List UInt8) → ℕ
  | [] => strchrnul s 0
  | [x] => strchrnul s x
  | c => (s.takeWhile fun b => b ≠ 0 ∧ inByteset (byteset c) b = false).length

def lfindNul (s : List UInt8) : ℕ := (s.takeWhile (· ≠ 0)).length

/-- The string and `*saveptr`. -/
abbrev Saved := List UInt8 × ℕ

def strtokR (delim : List UInt8) (st : Saved) (str : Option ℕ) : Option ℕ × Saved :=
  let (mem, saveptr) := st
  let str := str.getD saveptr
  let token := str + strspn (mem.drop str) delim
  if mem.getD token 0 = 0 then (none, mem, token)
  else
    -- `strpbrk`
    let stop := token + strcspn (mem.drop token) delim
    if mem.getD stop 0 = 0 then (some token, mem, token + lfindNul (mem.drop token))
    else (some token, mem.set stop 0, stop + 1)

def calls (delim : List UInt8) (st : Saved) : ℕ → List (Option ℕ) × Saved
  | 0 => ([], st)
  | n + 1 =>
    let (token, st) := strtokR delim st none
    let (tokens, st) := calls delim st n
    (token :: tokens, st)

def tokenized (delim text : List UInt8) (saveptr n : ℕ) : List (Option ℕ) × Saved :=
  let (token, st) := strtokR delim (text, saveptr) (some 0)
  let (tokens, st) := calls delim st n
  (token :: tokens, st)

def textAt (mem : List UInt8) (p : ℕ) : List UInt8 := (mem.drop p).takeWhile (· ≠ 0)

/-! ### What it is for -/

def maximalRuns (delim text : List UInt8) : List (List UInt8) := (text.splitOnP (· ∈ delim)).filter (· ≠ [])

def Cut (delim : List UInt8) : List UInt8 → List UInt8 → Prop :=
  List.Forall₂ fun b b' => b' = b ∨ b ∈ delim ∧ b' = 0

variable {delim : List UInt8}

theorem Cut.refl (l : List UInt8) : Cut delim l l := List.forall₂_same.mpr fun _ _ => Or.inl rfl

theorem Cut.append {a b c d : List UInt8} (h : Cut delim a b) (h' : Cut delim c d) : Cut delim (a ++ c)
    (b ++ d) :=
  List.rel_append h h'

/-! ### The two scans -/

theorem testBit_and_shift (w k : ℕ) : (w &&& 1 <<< k ≠ 0) ↔ w.testBit k = true := by
  rw [Nat.one_shiftLeft, Nat.and_two_pow]
  cases w.testBit k <;> simp

/-- A bit of the set is up exactly for the bytes that were put into it. -/
theorem inByteset_iff (c : List UInt8) (b : UInt8) : inByteset (byteset c) b = true ↔ b ∈ c := by
  have key : ∀ (c : List UInt8) (w : ℕ → ℕ),
      (c.foldl (fun w b => Function.update w (b.toNat / 32) (w (b.toNat / 32) ||| 1 <<< (b.toNat % 32))) w
        (b.toNat / 32)).testBit (b.toNat % 32) = true ↔
      (w (b.toNat / 32)).testBit (b.toNat % 32) = true ∨ b ∈ c := by
    intro c
    induction c with
    | nil => intro w; simp
    | cons x c ih =>
      intro w
      rw [List.foldl_cons, ih, List.mem_cons, ← or_assoc]
      apply or_congr_left
      have hx : b = x ↔ b.toNat / 32 = x.toNat / 32 ∧ x.toNat % 32 = b.toNat % 32 := by
        rw [← UInt8.toNat_inj]
        omega
      rw [hx, Function.update_apply]
      split
      · next hq => rw [Nat.testBit_or, Nat.one_shiftLeft, Nat.testBit_two_pow, ← hq]; simp
      · next hq => simp [hq]
  unfold inByteset byteset
  rw [decide_eq_true_iff, testBit_and_shift, key]
  simp

/-- Both paths of `strspn` stop at the first byte that is no delimiter. -/
theorem strspn_eq (h0 : (0 : UInt8) ∉ delim) (s : List UInt8) :
    strspn s delim = (s.takeWhile (· ∈ delim)).length := by
  unfold strspn
  split
  · cases s <;> simp
  · simp only [List.mem_singleton]
  · congr 2
    funext b
    simp only [inByteset_iff, decide_eq_decide]
    constructor
    · exact And.right
    · intro hb
      refine ⟨?_, hb⟩
      rintro rfl
      exact h0 hb

/-- Both paths of `strcspn` stop at the first delimiter or at the NUL. -/
theorem strcspn_eq (s : List UInt8) :
    strcspn s delim = (s.takeWhile fun b => b ≠ 0 ∧ b ∉ delim).length := by
  unfold strcspn strchrnul
  split
  · simp
  · simp only [List.mem_singleton]
  · congr 2
    funext b
    simp only [← Bool.not_eq_true, inByteset_iff]

theorem takeWhile_nonzero {u : List UInt8} (h0 : (0 : UInt8) ∉ u) :
    u.takeWhile (fun b => b ≠ 0 ∧ b ∉ delim) = u.takeWhile (· ∉ delim) := by
  induction u with
  | nil => rfl
  | cons x u ih =>
    have hx : x ≠ 0 := fun h => h0 (by simp [h])
    have hu := ih fun h => h0 (by simp [h])
    simp only [List.takeWhile_cons, ne_eq, hx, not_false_eq_true, true_and]
    rw [← hu]

/-! ### One call -/

section Call

variable {A d w r : List UInt8} {x : UInt8} (h0 : (0 : UInt8) ∉ delim) (hd : ∀ y ∈ d, y ∈ delim)

include h0 hd

theorem span_delims {u : List UInt8} (hu : ∀ y ∈ u.head?, y ∉ delim) :
    strspn ((A ++ (d ++ u)).drop A.length) delim = d.length := by
  rw [strspn_eq h0, List.drop_left, List.takeWhile_append_of_pos (by simpa using hd)]
  cases u with
  | nil => simp
  | cons y u =>
    have hy : y ∉ delim := hu y rfl
    simp [hy]

theorem strtokR_end : strtokR delim (A ++ d, A.length) none = (none, A ++ d, (A ++ d).length) := by
  have hs := span_delims (A := A) h0 hd (u := []) (by simp)
  rw [List.append_nil] at hs
  simp only [strtokR, Option.getD_none, hs]
  rw [← List.length_append, if_pos (by simp)]

variable (hne : w ≠ []) (hw : ∀ y ∈ w, y ∉ delim) (hw0 : (0 : UInt8) ∉ w)

include hne hw hw0

/-- A token begins at the first byte of the run. -/
theorem strtokR_begins (hr : (0 : UInt8) ∉ r) (hrd : ∀ y ∈ r.head?, y ∈ delim) :
    strspn ((A ++ (d ++ (w ++ r))).drop A.length) delim = d.length ∧
      (A ++ (d ++ (w ++ r))).getD (A.length + d.length) 0 ≠ 0 ∧
      strcspn ((A ++ (d ++ (w ++ r))).drop (A.length + d.length)) delim = w.length := by
  obtain ⟨y, w, rfl⟩ := List.exists_cons_of_ne_nil hne
  have hdrop : (A ++ (d ++ (y :: w ++ r))).drop (A.length + d.length) = y :: w ++ r := by
    rw [← List.append_assoc, ← List.length_append, List.drop_left]
  refine ⟨span_delims h0 hd ?_, ?_, ?_⟩
  · intro z hz
    obtain rfl : y = z := by simpa using hz
    exact hw y (by simp)
  · rw [← List.append_assoc, ← List.length_append, List.getD_append_right _ _ _ _ le_rfl]
    simp only [Nat.sub_self, List.cons_append, List.getD_cons_zero]
    intro hy
    exact hw0 (by simp [hy])
  · rw [hdrop, strcspn_eq, takeWhile_nonzero (by simp only [List.mem_append, not_or]; exact ⟨hw0, hr⟩),
      List.takeWhile_append_of_pos (by simpa using hw)]
    cases r with
    | nil => simp
    | cons z r =>
      have hz : z ∈ delim := hrd z rfl
      simp [hz]

/-- The last token reaches to the end of the string. -/
theorem strtokR_last :
    strtokR delim (A ++ (d ++ w), A.length) none =
      (some (A.length + d.length), A ++ (d ++ w), (A ++ (d ++ w)).length) := by
  obtain ⟨h1, h2, h3⟩ := strtokR_begins (A := A) (r := []) h0 hd hne hw hw0 (by simp) (by simp)
  rw [List.append_nil] at h1 h2 h3
  have hdrop : (A ++ (d ++ w)).drop (A.length + d.length) = w := by
    rw [← List.append_assoc, ← List.length_append, List.drop_left]
  have hlen : A.length + d.length + w.length = (A ++ (d ++ w)).length := by
    simp only [List.length_append]
    omega
  have hl : lfindNul w = w.length := by
    unfold lfindNul
    rw [List.takeWhile_eq_self_iff.mpr]
    intro y hy
    have : y ≠ 0 := fun h => hw0 (h ▸ hy)
    simpa using this
  simp only [strtokR, Option.getD_none, h1, h2, h3, if_false, hlen]
  rw [if_pos (by simp), hdrop, hl, hlen]

theorem strtokR_more (hx : x ∈ delim) (hr : (0 : UInt8) ∉ r) :
    strtokR delim (A ++ (d ++ (w ++ x :: r)), A.length) none =
      (some (A.length + d.length), A ++ (d ++ (w ++ 0 :: r)), (A ++ (d ++ (w ++ [0]))).length) := by
  have hx0 : x ≠ 0 := fun h => h0 (h ▸ hx)
  obtain ⟨h1, h2, h3⟩ := strtokR_begins (A := A) (r := x :: r) h0 hd hne hw hw0
    (by simp only [List.mem_cons, not_or]; exact ⟨hx0.symm, hr⟩) (by simpa using hx)
  have hlen : A.length + d.length + w.length = (A ++ (d ++ w)).length := by
    simp only [List.length_append]
    omega
  have hassoc : ∀ y, A ++ (d ++ (w ++ y :: r)) = (A ++ (d ++ w)) ++ y :: r := by
    intro y
    simp only [List.append_assoc]
  have hget : (A ++ (d ++ (w ++ x :: r))).getD (A.length + d.length + w.length) 0 ≠ 0 := by
    rw [hassoc, hlen, List.getD_append_right _ _ _ _ le_rfl]
    simpa using hx0
  have hset : (A ++ (d ++ (w ++ x :: r))).set (A.length + d.length + w.length) 0 =
    A ++ (d ++ (w ++ 0 :: r)) := by
    rw [hassoc, hassoc, hlen, List.set_append_right _ _ le_rfl]
    simp
  simp only [strtokR, Option.getD_none, h1, h2, h3, if_false, hget, hset]
  simp only [List.length_append, List.length_cons, List.length_nil, Prod.mk.injEq, true_and]
  omega

end Call

/-! ### All calls -/

theorem range_succ_getElem? (rs : List (List UInt8)) (n : ℕ) :
    (List.range (n + 1)).map (rs[·]?) = rs.head? :: (List.range n).map (rs.tail[·]?) := by
  rw [List.range_succ_eq_map, List.map_cons, List.map_map]
  congr 1
  · exact List.head?_eq_getElem?.symm
  · apply List.map_congr_left
    intro i _
    simp

theorem calls_succ (st : Saved) (n : ℕ) : calls delim st (n + 1) =
    ((strtokR delim st none).1 :: (calls delim (strtokR delim st none).2 n).1,
      (calls delim (strtokR delim st none).2 n).2) := rfl

theorem textAt_run {B w v : List UInt8} (hw0 : (0 : UInt8) ∉ w) (hv : ∀ y ∈ v.head?, y = 0) :
    textAt (B ++ (w ++ v)) B.length = w := by
  have hpos : ∀ y ∈ w, decide (y ≠ 0) = true := by
    intro y hy
    have : y ≠ 0 := fun h => hw0 (h ▸ hy)
    simpa using this
  unfold textAt
  rw [List.drop_left, List.takeWhile_append_of_pos hpos]
  cases v with
  | nil => simp
  | cons z v =>
    have hz : z = 0 := hv z rfl
    simp [hz]

/-- A call gives the next token, as a string, and leaves the save pointer at what is behind it. -/
theorem strtokR_next (h0 : (0 : UInt8) ∉ delim) {A u : List UInt8} (hu : (0 : UInt8) ∉ u) :
    Tokens.next (· ∈ delim) u = none ∧ strtokR delim (A ++ u, A.length) none =
      (none, A ++ u, (A ++ u).length) ∨
      ∃ t a b rest p, Tokens.next (· ∈ delim) u = some (t, rest) ∧ u = a ++ rest ∧ Cut delim a b ∧
        strtokR delim (A ++ u, A.length) none = (some p, A ++ b ++ rest, (A ++ b).length) ∧
        ∀ rest', Cut delim rest rest' → textAt (A ++ b ++ rest') p = t := by
  have hfront := Tokens.next_front (fun b => decide (b ∈ delim)) u
  generalize Tokens.next (fun b => decide (b ∈ delim)) u = r at hfront ⊢
  cases hfront with
  | blank hall => exact .inl ⟨rfl, strtokR_end h0 (by simpa using hall)⟩
  | @last d w hd hne hw =>
    have hw0 : (0 : UInt8) ∉ w := fun h => hu (by simp [h])
    have htext := textAt_run (B := A ++ d) (v := []) hw0 (by simp)
    rw [List.append_nil, List.append_assoc, List.length_append] at htext
    refine .inr ⟨w, d ++ w, d ++ w, [], A.length + d.length, rfl, (List.append_nil _).symm, Cut.refl _, ?_,
      ?_⟩
    · rw [strtokR_last h0 (by simpa using hd) hne (by simpa using hw) hw0, List.append_nil]
    · intro rest' hrest
      obtain rfl : rest' = [] := by cases hrest; rfl
      rw [List.append_nil, htext]
  | @more d w r x hd hne hw hx =>
    have hw0 : (0 : UInt8) ∉ w := fun h => hu (by simp [h])
    have hr : (0 : UInt8) ∉ r := fun h => hu (by simp [h])
    have hx : x ∈ delim := by simpa using hx
    have hassoc : ∀ l, A ++ (d ++ (w ++ [0])) ++ l = A ++ (d ++ (w ++ 0 :: l)) := by
      intro l
      simp
    refine .inr ⟨w, d ++ (w ++ [x]), d ++ (w ++ [0]), r, A.length + d.length, rfl, by simp, ?_, ?_, ?_⟩
    · exact (Cut.refl d).append ((Cut.refl w).append (.cons (.inr ⟨hx, rfl⟩) .nil))
    · rw [strtokR_more h0 (by simpa using hd) hne (by simpa using hw) hw0 hx hr, hassoc]
    · intro rest' _
      have htext := textAt_run (B := A ++ d) (v := 0 :: rest') hw0 (by simp)
      rw [List.append_assoc, List.length_append] at htext
      rw [hassoc, htext]

/-- What the calls find in `u` behind `A`; what is before the save pointer stays. -/
theorem calls_spec (h0 : (0 : UInt8) ∉ delim) : ∀ (n : ℕ) (A u : List UInt8), (0 : UInt8) ∉ u →
    ∃ u', (calls delim (A ++ u, A.length) n).2.1 = A ++ u' ∧ Cut delim u u' ∧
      (calls delim (A ++ u, A.length) n).1.map (Option.map (textAt (A ++ u'))) =
        (List.range n).map ((maximalRuns delim u)[·]?) := by
  intro n
  induction n with
  | zero =>
    intro A u _
    exact ⟨u, rfl, Cut.refl u, rfl⟩
  | succ n ih =>
    intro A u hu
    rw [range_succ_getElem?, calls_succ]
    obtain ⟨hnext, hcall⟩ | ⟨t, a, b, rest, p, hnext, rfl, hcut, hcall, htext⟩ := strtokR_next (A := A) h0 hu
    · have hruns : maximalRuns delim u = [] := Tokens.tokens_none hnext
      obtain ⟨v, hv1, hv2, hv3⟩ := ih (A ++ u) [] (by simp)
      obtain rfl : v = [] := by cases hv2; rfl
      rw [List.append_nil] at hv1 hv3
      refine ⟨u, by rw [hcall]; exact hv1, Cut.refl u, ?_⟩
      rw [hcall, List.map_cons, hv3, hruns]
      rfl
    · have hruns : maximalRuns delim (a ++ rest) = t :: maximalRuns delim rest := Tokens.tokens_some hnext
      obtain ⟨v, hv1, hv2, hv3⟩ := ih (A ++ b) rest fun h => hu (List.mem_append_right a h)
      refine ⟨b ++ v, by rw [hcall, ← List.append_assoc]; exact hv1, hcut.append hv2, ?_⟩
      rw [hcall, List.map_cons, ← List.append_assoc, hv3, hruns, Option.map_some, htext v hv2]
      rfl

/-- A call with the string and any number of calls with `NULL` give the maximal runs of bytes that are no
delimiters, in their order, and then `NULL` for ever; of the string only delimiters are overwritten. -/
theorem strtok_r_gives_runs (text delim : List UInt8) (saveptr n : ℕ) (ht : (0 : UInt8) ∉ text)
    (h0 : (0 : UInt8) ∉ delim) :
    (tokenized delim text saveptr n).1.map (Option.map (textAt (tokenized delim text saveptr n).2.1)) =
        (List.range (n + 1)).map ((maximalRuns delim text)[·]?) ∧
      Cut delim text (tokenized delim text saveptr n).2.1 := by
  obtain ⟨u, hu1, hu2, hu3⟩ := calls_spec h0 (n + 1) [] text ht
  have he : tokenized delim text saveptr n = calls delim ([] ++ text, ([] : List UInt8).length) (n + 1) := rfl
  rw [he, hu1]
  exact ⟨hu3, hu2⟩

theorem strtok_r_gives_runs_two :
    Cut [44, 32] [44, 97, 32, 98] (tokenized [44, 32] [44, 97, 32, 98] 0 3).2.1 :=
  (strtok_r_gives_runs [44, 97, 32, 98] [44, 32] 0 3 (by simp) (by simp)).2

end ChiffOS.Kutils
