import ChiffOS.Data.Hashmap
import ChiffOS.Kutils.Strtok

/-! The kernel's command line: `tokenize`, `args_parse`, `args_present` and `args_value`. The arguments come
into a hash map whose keys are copies in memory; a value is given by its text, since the copy of the token
it points into is never written again. -/

namespace ChiffOS.Kutils

open ChiffOS.Data

/-- The loop of `tokenize`: the tokens and the string it leaves. `room` is the room in the array, with the
`NULL` behind the last token. -/
def tokenize (sep : List UInt8) : (room : ℕ) → Saved → Option (List ℕ × List UInt8)
  | 0, _ => none
  | room + 1, st =>
    match strtokR sep st none with
    | (none, st) => some ([], st.1)
    | (some p, st) => (tokenize sep room st).map fun r => (p :: r.1, r.2)

/-- `while (*v)`: the name before the first `=`, and what is behind it. -/
def splitArg : List UInt8 → List UInt8 × Option (List UInt8)
  | [] => ([], none)
  | b :: t => if b = 61 then ([], some t) else (b :: (splitArg t).1, (splitArg t).2)

/-- The copy of a token after the loop: the first `=` is a NUL. -/
def cutArg : List UInt8 → List UInt8
  | [] => []
  | b :: t => if b = 61 then 0 :: t else b :: cutArg t

/-- What the kernel keeps: the memory and `kernel_args_map`. -/
abbrev ArgStore := Store (List UInt8)

/-- A round of the loop of `args_parse`. The copy of the token comes to `c`, that of a new key to `dst`. -/
def argTurn (s : ArgStore) (token : List UInt8) (c dst : ℕ) : Option ArgStore :=
  (hashmapSet { s with mem := s.mem.blit c (fun i => (cutArg token).getD i 0) (token.length + 1) } c
    (splitArg token).2 dst).map Prod.snd

/-- The loop of `args_parse`; `alloc i` is the memory that `valloc` gives for the token `i` and for its
name. -/
def argLoop (alloc : ℕ → ℕ × ℕ) : (i : ℕ) → List (List UInt8) → ArgStore → Option ArgStore
  | _, [], s => some s
  | i, t :: ts, s => (argTurn s t (alloc i).1 (alloc i).2).bind (argLoop alloc (i + 1) ts)

def argsParse (mem : Buf) (alloc : ℕ → ℕ × ℕ) (arg : List UInt8) : Option ArgStore := do
  let (argv, text) ← tokenize [32] 1024 (arg, 0)
  argLoop alloc 0 (argv.map (textAt text)) ⟨mem, hashmapCreate 10⟩

def argsPresent (s : ArgStore) (karg : ℕ) : Option Bool := hashmapHas s karg

def argsValue (s : ArgStore) (karg : ℕ) : Option (Option (List UInt8)) := hashmapGet s karg

/-! ### What the line means -/

/-- The token is the key, or begins with the key and `=`. -/
def Names (k t : List UInt8) : Prop := t = k ∨ k ++ [61] <+: t

instance (k t : List UInt8) : Decidable (Names k t) := inferInstanceAs (Decidable (_ ∨ _))

def lastValue (k : List UInt8) (tokens : List (List UInt8)) : Option (List UInt8) :=
  (tokens.reverse.find? (Names k ·)).bind fun t => if t = k then none else some (t.drop (k.length + 1))

theorem splitArg_names {k : List UInt8} (hk : (61 : UInt8) ∉ k) : ∀ t, (splitArg t).1 = k ↔ Names k t := by
  unfold Names
  induction k with
  | nil =>
    intro t
    cases t with
    | nil => simp [splitArg]
    | cons b t =>
      by_cases hb : b = 61
      · simp [splitArg, hb]
      · simp [splitArg, hb, Ne.symm hb]
  | cons x k ih =>
    intro t
    have hx : x ≠ 61 := fun h => hk (by simp [h])
    cases t with
    | nil => simp [splitArg]
    | cons b t =>
      have hrest := ih (fun h => hk (by simp [h])) t
      by_cases hb : b = 61
      · simp [splitArg, hb, hx, Ne.symm hx]
      · simp only [splitArg, hb, if_false, List.cons.injEq, hrest, List.cons_append, List.cons_prefix_cons]
        constructor
        · rintro ⟨rfl, h | h⟩
          · exact Or.inl ⟨rfl, h⟩
          · exact Or.inr ⟨rfl, h⟩
        · rintro (⟨rfl, h⟩ | ⟨rfl, h⟩)
          · exact ⟨rfl, Or.inl h⟩
          · exact ⟨rfl, Or.inr h⟩

theorem splitArg_value : ∀ t, (splitArg t).2 =
    if t = (splitArg t).1 then none else some (t.drop ((splitArg t).1.length + 1)) := by
  intro t
  induction t with
  | nil => rfl
  | cons b t ih =>
    by_cases hb : b = 61
    · simp [splitArg, hb]
    · simp only [splitArg, hb, if_false, List.cons.injEq, true_and, List.length_cons, List.drop_succ_cons]
      exact ih

def stored (tokens : List (List UInt8)) : Key → Option (Option (List UInt8)) :=
  tokens.foldl (fun f t => Function.update f (.text (splitArg t).1) (some (splitArg t).2)) fun _ => none

theorem stored_append (ts : List (List UInt8)) (t : List UInt8) :
    stored (ts ++ [t]) = Function.update (stored ts) (.text (splitArg t).1) (some (splitArg t).2) := by
  unfold stored
  rw [List.foldl_append]
  rfl

theorem stored_eq {k : List UInt8} (hk : (61 : UInt8) ∉ k) (ts : List (List UInt8)) :
    ((stored ts (.text k)).isSome = true ↔ ∃ t ∈ ts, Names k t) ∧
      (stored ts (.text k)).join = lastValue k ts := by
  induction ts using List.reverseRecOn with
  | nil => simp [stored, lastValue]
  | append_singleton ts t ih =>
    have hn := splitArg_names hk t
    rw [stored_append, Function.update_apply]
    by_cases h : (splitArg t).1 = k
    · rw [if_pos (by rw [h])]
      have ht := hn.mp h
      have hv := splitArg_value t
      rw [h] at hv
      refine ⟨by simpa using Or.inr ht, ?_⟩
      simp only [lastValue, List.reverse_append, List.reverse_cons, List.reverse_nil, List.nil_append,
        List.cons_append, List.find?_cons, ht, decide_true, Option.bind_some, Option.join_some]
      exact hv
    · have hk' : Key.text k ≠ Key.text (splitArg t).1 := fun he => h (Key.text.inj he).symm
      have ht : ¬ Names k t := fun h' => h (hn.mpr h')
      rw [if_neg hk']
      refine ⟨?_, ?_⟩
      · rw [ih.1]
        simp [ht, or_and_right, exists_or]
      · rw [ih.2]
        simp [lastValue, ht]

/-! ### The tokens -/

theorem tokenize_eq {sep : List UInt8} : ∀ (ts : List ℕ) (st : Saved) (more : ℕ),
    (calls sep st (ts.length + 1)).1 = ts.map some ++ [none] →
    tokenize sep (ts.length + 1 + more) st = some (ts, (calls sep st (ts.length + 1)).2.1) := by
  intro ts
  induction ts with
  | nil =>
    intro st more h
    rw [List.length_nil, calls_succ] at h ⊢
    have h1 : (strtokR sep st none).1 = none := by simpa [calls] using h
    rw [show 0 + 1 + more = more + 1 by omega, tokenize]
    cases hr : strtokR sep st none with
    | mk p st' =>
      rw [hr] at h1
      obtain rfl : p = none := h1
      rfl
  | cons t ts ih =>
    intro st more h
    rw [List.length_cons, calls_succ] at h ⊢
    obtain ⟨h1, h2⟩ := List.cons.inj h
    rw [show ts.length + 1 + 1 + more = ts.length + 1 + more + 1 by omega, tokenize]
    cases hr : strtokR sep st none with
    | mk p st' =>
      rw [hr] at h1 h2
      obtain rfl : p = some t := h1
      simp only
      rw [ih st' more h2]
      rfl

theorem map_some_inj {α : Type} (f : ℕ → α) : ∀ (l : List (Option ℕ)) (rs : List α),
    l.map (Option.map f) = rs.map some → ∃ ts : List ℕ, l = ts.map some ∧ ts.map f = rs := by
  intro l
  induction l with
  | nil =>
    intro rs h
    cases rs with
    | nil => exact ⟨[], rfl, rfl⟩
    | cons r rs => cases h
  | cons o l ih =>
    intro rs h
    cases rs with
    | nil => cases h
    | cons r rs =>
      obtain ⟨h1, h2⟩ := List.cons.inj h
      obtain ⟨ts, rfl, rfl⟩ := ih rs h2
      obtain ⟨t, rfl, rfl⟩ := Option.map_eq_some_iff.mp h1
      exact ⟨t :: ts, rfl, rfl⟩

theorem range_getElem? (rs : List (List UInt8)) :
    (List.range (rs.length + 1)).map (rs[·]?) = rs.map some ++ [none] := by
  rw [List.range_succ, List.map_append]
  congr 1
  · apply List.ext_getElem?
    intro i
    by_cases hi : i < rs.length
    · simp [hi]
    · simp [hi]
  · simp

/-- `tokenize` finds the tokens of a line that the array has room for. -/
theorem tokenize_spec (arg : List UInt8) (ha : (0 : UInt8) ∉ arg)
    (hn : (maximalRuns [32] arg).length < 1024) :
    ∃ argv text, tokenize [32] 1024 (arg, 0) = some (argv, text) ∧
      argv.map (textAt text) = maximalRuns [32] arg := by
  have h0 : (0 : UInt8) ∉ [32] := by simp
  obtain ⟨u, hu1, _, hu3⟩ := calls_spec h0 ((maximalRuns [32] arg).length + 1) [] arg ha
  rw [range_getElem?] at hu3
  obtain ⟨l, o, hlo⟩ : ∃ l o, (calls [32] ([] ++ arg, ([] : List UInt8).length)
      ((maximalRuns [32] arg).length + 1)).1 = l ++ [o] := by
    have hne : (calls [32] ([] ++ arg, ([] : List UInt8).length) ((maximalRuns [32] arg).length + 1)).1 ≠
      [] := by
      rw [calls_succ]
      simp
    exact ⟨_, _, (List.dropLast_append_getLast hne).symm⟩
  rw [hlo, List.map_append] at hu3
  obtain ⟨h1, h2⟩ := List.append_inj' hu3 rfl
  obtain ⟨argv, rfl, hargv⟩ := map_some_inj _ l _ h1
  obtain rfl : o = none := by simpa using h2
  have hlen : argv.length = (maximalRuns [32] arg).length := by rw [← hargv, List.length_map]
  rw [← hlen] at hlo hu1 hn
  obtain ⟨more, hmore⟩ := Nat.exists_eq_add_of_lt hn
  have ht := tokenize_eq argv ([] ++ arg, ([] : List UInt8).length) more hlo
  rw [hu1, show argv.length + 1 + more = 1024 by omega] at ht
  exact ⟨argv, [] ++ u, ht, hargv⟩

/-! ### The map -/

def Apart (a b len len' : ℕ) : Prop := a + len ≤ b ∨ b + len' ≤ a

/-- `valloc` gives memory that is not in use: neither block of a token meets the keys kept before, nor the
other. -/
def Fresh (alloc : ℕ → ℕ × ℕ) (tokens : List (List UInt8)) : Prop :=
  ∀ i t, tokens[i]? = some t → Apart (alloc i).1 (alloc i).2 (t.length + 1) (t.length + 1) ∧
    ∀ j t', j < i → tokens[j]? = some t' →
      Apart (alloc i).1 (alloc j).2 (t.length + 1) (t'.length + 1) ∧
      Apart (alloc i).2 (alloc j).2 (t.length + 1) (t'.length + 1)

/-- Writes to memory that holds no key keep the map. -/
theorem Refines.write {s : ArgStore} {a : MapState (List UInt8)} {size : ℕ} (h : Refines .string size s a)
    {m : Buf}
    (hm : ∀ addr, ¬ a.Unowned addr → m addr = a.mem addr) :
    Refines .string size { s with mem := m } { a with mem := m } := by
  obtain ⟨t, ht, hall⟩ := h.table
  refine ⟨h.kind_eq, h.size_eq, rfl, t, ht, fun i => ?_⟩
  exact (hall i).imp fun x kv hx => hx.keep hm (List.Subset.refl _)

theorem splitArg_length (t : List UInt8) : (splitArg t).1.length ≤ t.length := by
  induction t with
  | nil => exact le_rfl
  | cons b t ih =>
    by_cases hb : b = 61
    · simp [splitArg, hb]
    · simpa [splitArg, hb] using ih

/-- The name is the string at the beginning of the cut copy. -/
theorem textFrom_cutArg {m : Buf} : ∀ (t : List UInt8) (k p : ℕ), (0 : UInt8) ∉ t → t.length < k →
    (∀ i ≤ t.length, m (p + i) = (cutArg t).getD i 0) → textFrom m k p = some (splitArg t).1 := by
  intro t
  induction t with
  | nil =>
    intro k p _ hk hm
    obtain ⟨k, rfl⟩ := Nat.exists_eq_succ_of_ne_zero (by omega : k ≠ 0)
    have h0 : m p = 0 := hm 0 le_rfl
    rw [textFrom, if_pos h0]
    rfl
  | cons b t ih =>
    intro k p ht hk hm
    have hlen : (b :: t).length = t.length + 1 := rfl
    obtain ⟨k, rfl⟩ := Nat.exists_eq_succ_of_ne_zero (by omega : k ≠ 0)
    have h0 : m p = (cutArg (b :: t)).getD 0 0 := hm 0 (Nat.zero_le _)
    by_cases hb : b = 61
    · simp only [cutArg, hb, if_true, List.getD_cons_zero] at h0
      rw [textFrom, if_pos h0]
      simp [splitArg, hb]
    · simp only [cutArg, hb, if_false, List.getD_cons_zero] at h0
      have hb0 : b ≠ 0 := fun h => ht (by simp [h])
      have hrest := ih k (p + 1) (fun h => ht (by simp [h])) (by omega) (by
        intro i hi
        have := hm (i + 1) (by omega)
        simp only [cutArg, hb, if_false, List.getD_cons_succ] at this
        rw [← this]
        congr 1
        omega)
      rw [textFrom, if_neg (by rw [h0]; exact hb0), hrest, h0]
      simp [splitArg, hb]

def Kept (alloc : ℕ → ℕ × ℕ) (tokens : List (List UInt8)) (i : ℕ) (a : MapState (List UInt8)) : Prop :=
  ∀ c ∈ a.copies, ∃ j t, j < i ∧ tokens[j]? = some t ∧ c.1 = (alloc j).2 ∧ c.2 ≤ t.length + 1

section Turn

variable {alloc : ℕ → ℕ × ℕ} {tokens : List (List UInt8)} {i : ℕ} {t : List UInt8} {a : MapState (List UInt8)}

/-- The block of a token holds no key, and neither does that of its name. -/
theorem Fresh.unowned (hf : Fresh alloc tokens) (ht : tokens[i]? = some t) (hk : Kept alloc tokens i a)
    {j : ℕ}
    (hj : j < t.length + 1) : a.Unowned ((alloc i).1 + j) ∧ a.Unowned ((alloc i).2 + j) := by
  constructor
  · intro c hc
    obtain ⟨j', t', hlt, ht', h1, h2⟩ := hk c hc
    have := ((hf i t ht).2 j' t' hlt ht').1
    unfold Apart at this
    omega
  · intro c hc
    obtain ⟨j', t', hlt, ht', h1, h2⟩ := hk c hc
    have := ((hf i t ht).2 j' t' hlt ht').2
    unfold Apart at this
    omega

/-- A round puts the token's name and value into the map. -/
theorem argTurn_spec (hf : Fresh alloc tokens) (ht : tokens[i]? = some t) (h0 : (0 : UInt8) ∉ t)
    (hlen : t.length < memSize) {s : ArgStore} (h : Refines .string 10 s a) (hk : Kept alloc tokens i a) :
    ∃ s' a', argTurn s t (alloc i).1 (alloc i).2 = some s' ∧ Refines .string 10 s' a' ∧
      Kept alloc tokens (i + 1) a' ∧
      a'.stored = Function.update a.stored (.text (splitArg t).1) (some (splitArg t).2) := by
  obtain ⟨m, hm⟩ : ∃ m, m = s.mem.blit (alloc i).1 (fun i => (cutArg t).getD i 0) (t.length + 1) := ⟨_, rfl⟩
  have hkeep : ∀ addr, ¬ a.Unowned addr → m addr = a.mem addr := by
    intro addr hun
    rw [hm, ← h.mem]
    apply Buf.blit_out
    by_contra hin
    have hj := (hf.unowned ht hk (j := addr - (alloc i).1) (by omega)).1
    rw [show (alloc i).1 + (addr - (alloc i).1) = addr by omega] at hj
    exact hun hj
  have hw := Refines.write h hkeep
  have hkey : keyOf m (alloc i).1 .string = some (.text (splitArg t).1) := by
    have htext : Data.textAt m (alloc i).1 = some (splitArg t).1 := by
      apply textFrom_cutArg t _ _ h0 hlen
      intro j hj
      rw [hm, Buf.blit_in (by omega) (by omega), Nat.add_sub_cancel_left]
    rw [keyOf, htext, Option.map_some]
  have hmono : ∀ c ∈ a.copies, ∃ j t', j < i + 1 ∧ tokens[j]? = some t' ∧ c.1 = (alloc j).2 ∧
    c.2 ≤ t'.length + 1 := by
    intro c hc
    obtain ⟨j, t', hj, hrest⟩ := hk c hc
    exact ⟨j, t', by omega, hrest⟩
  have hturn : ∀ {out s'}, hashmapSet { s with mem := m } (alloc i).1 (splitArg t).2 (alloc i).2 =
    some (out, s') →
      argTurn s t (alloc i).1 (alloc i).2 = some s' := by
    intro out s' hs
    unfold argTurn
    rw [← hm, hs, Option.map_some]
  cases hold : a.stored (.text (splitArg t).1) with
  | some old =>
    obtain ⟨s', hs, hr⟩ := hw.replace hkey hold (splitArg t).2 (alloc i).2
    exact ⟨s', _, hturn hs, hr, hmono, rfl⟩
  | none =>
    have hroom : MapState.Room { a with mem := m } (.text (splitArg t).1) (alloc i).1 (alloc i).2 := by
      intro c hc j hj
      obtain rfl : c = ((alloc i).2, (splitArg t).1.length + 1) := by simpa [Key.area] using hc
      have hl := splitArg_length t
      have hap := (hf i t ht).1
      unfold Apart at hap
      dsimp only at hj ⊢
      exact ⟨(hf.unowned ht hk (by omega)).2, by omega⟩
    obtain ⟨s', hs, hr⟩ := hw.add hkey hold hroom (splitArg t).2
    refine ⟨s', _, hturn hs, hr, ?_, rfl⟩
    intro c hc
    obtain hc | hc := List.mem_append.mp hc
    · obtain rfl : c = ((alloc i).2, (splitArg t).1.length + 1) := by simpa [Key.area] using hc
      have hl := splitArg_length t
      exact ⟨i, t, by omega, ht, rfl, by dsimp only; omega⟩
    · exact hmono c hc

end Turn

theorem argLoop_spec {alloc : ℕ → ℕ × ℕ} {tokens : List (List UInt8)} (hf : Fresh alloc tokens)
    (h0 : ∀ t ∈ tokens, (0 : UInt8) ∉ t ∧ t.length < memSize) :
      ∀ (rest done : List (List UInt8)) (s : ArgStore)
    (a : MapState (List UInt8)), tokens = done ++ rest → Refines .string 10 s a →
      Kept alloc tokens done.length a →
    a.stored = stored done → ∃ s' a', argLoop alloc done.length rest s = some s' ∧ Refines .string 10 s' a' ∧
      a'.stored = stored tokens := by
  intro rest
  induction rest with
  | nil =>
    intro done s a ht h _ hs
    rw [List.append_nil] at ht
    exact ⟨s, a, rfl, h, by rw [hs, ht]⟩
  | cons t rest ih =>
    intro done s a ht h hk hs
    have hi : tokens[done.length]? = some t := by
      rw [ht]
      simp
    obtain ⟨hz, hlen⟩ := h0 t (by rw [ht]; simp)
    obtain ⟨s₁, a₁, h1, h2, h3, h4⟩ := argTurn_spec hf hi hz hlen h hk
    have hdone : (done ++ [t]).length = done.length + 1 := by simp
    rw [← hdone] at h3
    obtain ⟨s', a', hl, hr⟩ := ih (done ++ [t]) s₁ a₁ (by rw [ht]; simp) h2 h3 (by rw [h4, hs, stored_append])
    refine ⟨s', a', ?_, hr⟩
    rw [argLoop, h1, Option.bind_some, ← hdone]
    exact hl

theorem maximalRuns_sublist {delim text t : List UInt8} (ht : t ∈ maximalRuns delim text) :
    t.Sublist text := by
  have key : ∀ (text : List UInt8), ∀ t ∈ text.splitOnP (· ∈ delim), t.Sublist text := by
    intro text
    induction text with
    | nil =>
      intro t ht
      obtain rfl : t = [] := by simpa using ht
      exact List.Sublist.refl _
    | cons y text ih =>
      intro t ht
      rw [List.splitOnP_cons_eq_if_modifyHead] at ht
      split at ht
      · obtain rfl | ht := List.mem_cons.mp ht
        · exact List.nil_sublist _
        · exact (ih t ht).cons y
      · cases hs : text.splitOnP (· ∈ delim) with
        | nil =>
          rw [hs] at ht
          cases ht
        | cons r rs =>
          rw [hs] at ht ih
          obtain rfl | ht := List.mem_cons.mp ht
          · exact (ih r List.mem_cons_self).cons_cons y
          · exact (ih t (List.mem_cons_of_mem _ ht)).cons y
  exact key text t (List.mem_of_mem_filter ht)

/-- After `args_parse` of a line of fewer than 1024 tokens, an argument is present exactly when some token
is it or begins with it and `=`, and its value is what is behind the first `=` of the last such token. -/
theorem args_parse_line (mem : Buf) (alloc : ℕ → ℕ × ℕ) (arg : List UInt8) (ha : (0 : UInt8) ∉ arg)
    (hn : (maximalRuns [32] arg).length < 1024) (hl : arg.length < memSize)
    (hf : Fresh alloc (maximalRuns [32] arg)) :
    ∃ s, argsParse mem alloc arg = some s ∧ ∀ karg k, Data.textAt s.mem karg = some k → (61 : UInt8) ∉ k →
      (∃ present, argsPresent s karg = some present ∧
        (present = true ↔ ∃ t ∈ maximalRuns [32] arg, Names k t)) ∧
      argsValue s karg = some (lastValue k (maximalRuns [32] arg)) := by
  obtain ⟨argv, text, htok, hargv⟩ := tokenize_spec arg ha hn
  have hinit : Refines .string 10 (⟨mem, hashmapCreate 10⟩ : ArgStore) ⟨mem, [], fun _ => none⟩ :=
    ⟨rfl, rfl, rfl, fun _ => [], Buckets.Table.empty _, fun _ => .nil⟩
  have h0 : ∀ t ∈ maximalRuns [32] arg, (0 : UInt8) ∉ t ∧ t.length < memSize := by
    intro t ht
    have hsub := maximalRuns_sublist ht
    exact ⟨fun hz => ha (hsub.subset hz), hsub.length_le.trans_lt hl⟩
  obtain ⟨s, a, hloop, hr, hst⟩ := argLoop_spec hf h0 _ [] _ _ rfl hinit (fun c hc => by cases hc) rfl
  refine ⟨s, ?_, ?_⟩
  · simp only [argsParse, htok, Option.bind_eq_bind, Option.bind_some, hargv]
    exact hloop
  · intro karg k hk heq
    have hkey : keyOf a.mem karg .string = some (.text k) := by
      rw [keyOf, ← hr.mem, hk, Option.map_some]
    obtain ⟨hp, hv⟩ := stored_eq heq (maximalRuns [32] arg)
    refine ⟨⟨_, hr.has hkey, ?_⟩, ?_⟩
    · rw [hst]
      exact hp
    · rw [← hv, ← hst]
      exact hr.get hkey

def argLine : List UInt8 := [97, 61, 98, 32, 99, 32, 97, 61, 100]

theorem maximalRuns_argLine : maximalRuns [32] argLine = [[97, 61, 98], [99], [97, 61, 100]] := by decide

theorem fresh_argLine : Fresh (fun i => (32 * i, 32 * i + 16)) (maximalRuns [32] argLine) := by
  have hlen : ∀ (i : ℕ) t, (maximalRuns [32] argLine)[i]? = some t → t.length < 16 := by
    intro i t ht
    have hall : ∀ t ∈ maximalRuns [32] argLine, t.length < 16 := by
      rw [maximalRuns_argLine]
      decide
    exact hall t (List.mem_of_getElem? ht)
  intro i t ht
  have h1 := hlen i t ht
  refine ⟨Or.inl (by dsimp only; omega), fun j t' hj ht' => ?_⟩
  have h2 := hlen j t' ht'
  exact ⟨Or.inr (by dsimp only; omega), Or.inr (by dsimp only; omega)⟩

/-- The second token for `a` has replaced the first, whose copy of the name at 16 is the key; `c` has no
value. -/
theorem args_parse_line_three :
    ∃ s, argsParse (fun _ => 0) (fun i => (32 * i, 32 * i + 16)) argLine = some s ∧
      argsPresent s 16 = some true ∧ argsValue s 16 = some (some [100]) ∧
      argsPresent s 48 = some true ∧ argsValue s 48 = some none := by
  obtain ⟨s, hs, h⟩ := args_parse_line (fun _ => 0) (fun i => (32 * i, 32 * i + 16)) argLine (by decide)
    (by rw [maximalRuns_argLine]; decide) (by decide) fresh_argLine
  have hkeys : (argsParse (fun _ => 0) (fun i => (32 * i, 32 * i + 16)) argLine).map
      (fun s => (Data.textAt s.mem 16, Data.textAt s.mem 48)) =
        some (some [97], some [99]) := by decide +kernel
  rw [hs] at hkeys
  obtain ⟨ha, hc⟩ := Prod.mk.inj (Option.some.inj hkeys)
  obtain ⟨⟨p, hp, hpa⟩, hva⟩ := h 16 [97] ha (by decide)
  obtain ⟨⟨q, hq, hqc⟩, hvc⟩ := h 48 [99] hc (by decide)
  rw [maximalRuns_argLine] at hpa hva hqc hvc
  obtain rfl : p = true := hpa.mpr (by decide)
  obtain rfl : q = true := hqc.mpr (by decide)
  exact ⟨s, hs, hp, hva, hq, hvc⟩

end ChiffOS.Kutils
