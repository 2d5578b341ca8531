import Mathlib
import ChiffOS.Lib.Bytes

/-! Reading a line from the console, `stdio_read__` of `syscalls.c`. It is compared with an edit buffer over
the keys that it has taken: the pointer and the count move together, and stay inside of the buffer. What is
drawn on the screen is left out. -/

namespace ChiffOS.Dev.Console

open Function

def backspace : UInt8 := 0x08

/-- `\r` and `\n`. -/
def EndsLine (c : UInt8) : Prop := c = 0x0D ∨ c = 0x0A

instance (c : UInt8) : Decidable (EndsLine c) := by unfold EndsLine; infer_instance

/-! ### The source -/

/-- What a call returns, how many keys it has taken, and the buffer. -/
structure Result where
  ret : ℤ
  taken : ℕ
  buf : Buf

/-- The loop of `stdio_read__`, before the key `k` and with `p` as an offset. There is no result without
`fuel`, and none where the assertion behind the loop fails. -/
def readLine (keys : ℕ → UInt8) (length : ℕ) : (fuel k p : ℕ) → (ret : ℤ) → Buf → Option Result
  | 0, _, _, _, _ => none
  | fuel + 1, k, p, ret, buf =>
    if p + 1 < length then
      let c := keys k
      if c = backspace then
        if p > 0 then readLine keys length fuel (k + 1) (p - 1) (ret - 1) buf
        else readLine keys length fuel (k + 1) p ret buf
      -- the end of file is `-1` as a signed byte
      else if c = 0xFF then
        if ret > 0 then readLine keys length fuel (k + 1) p ret buf else some ⟨0, k + 1, buf⟩
      else if EndsLine c then some ⟨ret + 1, k + 1, update (update buf p c) (p + 1) 0⟩
      else readLine keys length fuel (k + 1) (p + 1) (ret + 1) (update buf p c)
    else if p < length then some ⟨ret, k, update buf p 0⟩
    else none

def stdioRead (keys : ℕ → UInt8) (fuel fd : ℕ) (buf : Buf) (length : ℕ) : Option Result :=
  if fd ≠ 0 then some ⟨0, 0, buf⟩ else readLine keys length fuel 0 0 0 buf

/-! ### The edit buffer -/

/-- A backspace takes the last byte out, if there is one, and every other key goes behind the others. -/
def edit (held : List UInt8) (c : UInt8) : List UInt8 := if c = backspace then held.dropLast else held ++ [c]

def held (keys : ℕ → UInt8) : ℕ → List UInt8
  | 0 => []
  | n + 1 => edit (held keys n) (keys n)

def Stopped (length : ℕ) (held : List UInt8) : Prop := length ≤ held.length + 1 ∨ ∃ c ∈ held, EndsLine c

/-- The edit buffer when it stops is what the call has stored, with a zero behind it, and nothing else has
changed but inside of the buffer. -/
structure Reads (keys : ℕ → UInt8) (length : ℕ) (buf : Buf) (r : Result) : Prop where
  stopped : Stopped length (held keys r.taken)
  first : ∀ m < r.taken, ¬ Stopped length (held keys m)
  ret : r.ret = (held keys r.taken).length
  stored : ∀ i (h : i < (held keys r.taken).length), r.buf i = (held keys r.taken)[i]
  zero : r.buf (held keys r.taken).length = 0
  inside : (held keys r.taken).length < length
  frame : ∀ i, length ≤ i → r.buf i = buf i

structure Editing (keys : ℕ → UInt8) (length : ℕ) (buf₀ : Buf) (k p : ℕ) (ret : ℤ) (buf : Buf) : Prop where
  p_eq : p = (held keys k).length
  ret_eq : ret = p
  room : p < length
  stored : ∀ i (h : i < (held keys k).length), buf i = (held keys k)[i]
  frame : ∀ i, length ≤ i → buf i = buf₀ i
  before : ∀ m < k, ¬ Stopped length (held keys m)
  plain : ∀ c ∈ held keys k, ¬ EndsLine c

section

variable {keys : ℕ → UInt8} {length : ℕ} {buf₀ : Buf} {k p : ℕ} {ret : ℤ} {buf : Buf}

/-- What is stored stays where another byte is written behind it. -/
theorem stored_update {held : List UInt8} (h : ∀ i (hi : i < held.length), buf i = held[i]) (c : UInt8) :
    ∀ i (hi : i < (held ++ [c]).length), update buf held.length c i = (held ++ [c])[i] := by
  intro i hi
  by_cases hlast : i = held.length
  · subst hlast
    simp
  · rw [List.length_append, List.length_singleton] at hi
    have hlt : i < held.length := by omega
    rw [update_of_ne hlast, h i hlt, List.getElem_append_left hlt]

namespace Editing

variable (h : Editing keys length buf₀ k p ret buf)

include h

theorem not_stopped (hroom : p + 1 < length) : ¬ Stopped length (held keys k) := by
  rintro (hfull | ⟨c, hc, hends⟩)
  · have hp := h.p_eq
    omega
  · exact h.plain c hc hends

theorem before_succ (hroom : p + 1 < length) : ∀ m < k + 1, ¬ Stopped length (held keys m) := by
  intro m hm
  rcases Nat.lt_succ_iff_lt_or_eq.mp hm with hlt | rfl
  · exact h.before m hlt
  · exact h.not_stopped hroom

theorem backspace_some (hroom : p + 1 < length) (hc : keys k = backspace) (hp : 0 < p) :
    Editing keys length buf₀ (k + 1) (p - 1) (ret - 1) buf := by
  have hheld : held keys (k + 1) = (held keys k).dropLast := if_pos hc
  have hlen : (held keys (k + 1)).length = (held keys k).length - 1 := by rw [hheld, List.length_dropLast]
  have hpeq := h.p_eq
  have hret := h.ret_eq
  refine ⟨by omega, by omega, by omega, fun i hi => ?_, h.frame, h.before_succ hroom, fun c hmem => ?_⟩
  · rw [h.stored i (by omega)]
    simp only [hheld, List.getElem_dropLast]
  · rw [hheld] at hmem
    exact h.plain c (List.mem_of_mem_dropLast hmem)

theorem backspace_empty (hroom : p + 1 < length) (hc : keys k = backspace) (hp : ¬ 0 < p) :
    Editing keys length buf₀ (k + 1) p ret buf := by
  have hnil : held keys k = [] := List.eq_nil_of_length_eq_zero (by have := h.p_eq; omega)
  have hheld : held keys (k + 1) = held keys k := by
    rw [held, edit, if_pos hc, hnil]
    rfl
  exact ⟨hheld ▸ h.p_eq, h.ret_eq, h.room, by simpa only [hheld] using h.stored, h.frame, h.before_succ hroom,
    by simpa only [hheld] using h.plain⟩

theorem append_key (hroom : p + 1 < length) (hc : keys k ≠ backspace) (hends : ¬ EndsLine (keys k)) :
    Editing keys length buf₀ (k + 1) (p + 1) (ret + 1) (update buf p (keys k)) := by
  have hheld : held keys (k + 1) = held keys k ++ [keys k] := if_neg hc
  refine ⟨?_, ?_, hroom, ?_, fun i hi => ?_, h.before_succ hroom, fun c hmem => ?_⟩
  · rw [hheld, List.length_append, List.length_singleton, h.p_eq]
  · rw [h.ret_eq, Nat.cast_succ]
  · have hstored := stored_update h.stored (keys k)
    rw [← h.p_eq] at hstored
    simpa only [hheld] using hstored
  · rw [update_of_ne (by omega), h.frame i hi]
  · rw [hheld] at hmem
    rcases List.mem_append.mp hmem with hmem | hmem
    · exact h.plain c hmem
    · rw [List.mem_singleton.mp hmem]
      exact hends

theorem end_line (hroom : p + 1 < length) (hc : keys k ≠ backspace) (hends : EndsLine (keys k)) :
    Reads keys length buf₀ ⟨ret + 1, k + 1, update (update buf p (keys k)) (p + 1) 0⟩ := by
  have hheld : held keys (k + 1) = held keys k ++ [keys k] := if_neg hc
  have hlen : (held keys (k + 1)).length = p + 1 := by
    rw [hheld, List.length_append, List.length_singleton, h.p_eq]
  refine ⟨.inr ⟨keys k, ?_, hends⟩, h.before_succ hroom, ?_, fun i hi => ?_, ?_, ?_, fun i hi => ?_⟩
  · simp only [hheld]
    exact List.mem_append_right _ List.mem_cons_self
  · simp only [hlen, h.ret_eq, Nat.cast_succ]
  · have hstored := stored_update h.stored (keys k)
    rw [← h.p_eq] at hstored
    simp only [hlen] at hi
    simp only [hheld]
    rw [update_of_ne (by omega), hstored i]
  · simp only [hlen, update_self]
  · simp only [hlen]
    exact hroom
  · simp only
    rw [update_of_ne (by omega), update_of_ne (by omega), h.frame i hi]

theorem full (hroom : ¬ p + 1 < length) : Reads keys length buf₀ ⟨ret, k, update buf p 0⟩ := by
  have hp := h.p_eq
  have hlt := h.room
  refine ⟨.inl (by simp only; omega), h.before, h.ret_eq.trans (by rw [hp]), fun i hi => ?_, ?_, ?_,
    fun i hi => ?_⟩
  · simp only at hi ⊢
    rw [update_of_ne (by omega), h.stored i hi]
  · simp only [← hp, update_self]
  · simp only
    omega
  · simp only
    rw [update_of_ne (by omega), h.frame i hi]

end Editing

theorem readLine_reads (hkeys : ∀ i, keys i ≠ 0xFF) (fuel : ℕ) : ∀ {k p : ℕ} {ret : ℤ} {buf : Buf},
    Editing keys length buf₀ k p ret buf →
      (∀ r, readLine keys length fuel k p ret buf = some r → Reads keys length buf₀ r) ∧
      ∀ n, k ≤ n → n < k + fuel → Stopped length (held keys n) →
        (readLine keys length fuel k p ret buf).isSome := by
  induction fuel with
  | zero =>
    intro k p ret buf _
    refine ⟨fun r hr => ?_, fun n h1 h2 => ?_⟩
    · cases hr
    · omega
  | succ fuel ih =>
    intro k p ret buf h
    -- a stop after the key `k` is not one before it
    have hlater : ∀ {r : Option Result}, p + 1 < length →
        (∀ n, k + 1 ≤ n → n < k + 1 + fuel → Stopped length (held keys n) → r.isSome) →
        ∀ n, k ≤ n → n < k + (fuel + 1) → Stopped length (held keys n) → r.isSome := by
      intro r hroom hr n h1 h2 hn
      have hne : n ≠ k := by
        rintro rfl
        exact h.not_stopped hroom hn
      exact hr n (by omega) (by omega) hn
    simp only [readLine]
    by_cases hroom : p + 1 < length
    · rw [if_pos hroom, if_neg (hkeys k)]
      by_cases hc : keys k = backspace
      · rw [if_pos hc]
        by_cases hp : p > 0
        · rw [if_pos hp]
          obtain ⟨h1, h2⟩ := ih (h.backspace_some hroom hc hp)
          exact ⟨h1, hlater hroom h2⟩
        · rw [if_neg hp]
          obtain ⟨h1, h2⟩ := ih (h.backspace_empty hroom hc hp)
          exact ⟨h1, hlater hroom h2⟩
      · rw [if_neg hc]
        by_cases hends : EndsLine (keys k)
        · rw [if_pos hends]
          refine ⟨fun r hr => ?_, fun _ _ _ _ => rfl⟩
          obtain rfl := Option.some.inj hr
          exact h.end_line hroom hc hends
        · rw [if_neg hends]
          obtain ⟨h1, h2⟩ := ih (h.append_key hroom hc hends)
          exact ⟨h1, hlater hroom h2⟩
    · rw [if_neg hroom, if_pos h.room]
      refine ⟨fun r hr => ?_, fun _ _ _ _ => rfl⟩
      obtain rfl := Option.some.inj hr
      exact h.full hroom

end

/-- A call returns once the edit buffer stops, with what is in it. -/
theorem stdio_read_edits (keys : ℕ → UInt8) (hkeys : ∀ i, keys i ≠ 0xFF) (length : ℕ) (hlength : 1 ≤ length)
    (buf : Buf) :
    (∀ fuel r, stdioRead keys fuel 0 buf length = some r → Reads keys length buf r) ∧
    ∀ n, Stopped length (held keys n) → ∃ r, stdioRead keys (n + 1) 0 buf length = some r := by
  have hstart : Editing keys length buf 0 0 0 buf :=
    ⟨rfl, rfl, hlength, fun i hi => absurd hi (Nat.not_lt_zero i), fun _ _ => rfl, fun m hm =>
      absurd hm (Nat.not_lt_zero m),
      fun c hc => absurd hc List.not_mem_nil⟩
  constructor
  · intro fuel r hr
    exact (readLine_reads hkeys fuel hstart).1 r hr
  · intro n hn
    have hsome := (readLine_reads hkeys (n + 1) hstart).2 n (Nat.zero_le n) (by omega) hn
    exact Option.isSome_iff_exists.mp hsome

/-- `a`, a backspace, `b` and then returns, for a buffer of eight bytes. -/
theorem stdio_read_edits_line : ∃ r,
    stdioRead (fun i => if i = 0 then 0x61 else if i = 1 then backspace else if i = 2 then 0x62 else 0x0D) 5 0
      (fun _ => 0) 8 = some r ∧
    Reads (fun i => if i = 0 then 0x61 else if i = 1 then backspace else if i = 2 then 0x62 else 0x0D) 8
      (fun _ => 0) r := by
  have hkeys : ∀ i : ℕ, (if i = 0 then 0x61 else if i = 1 then backspace else if i =
    2 then 0x62 else 0x0D) ≠ (0xFF : UInt8) := by
    intro i
    split_ifs <;> decide
  obtain ⟨hreads, hsome⟩ := stdio_read_edits _ hkeys 8 (by decide) fun _ => 0
  obtain ⟨r, hr⟩ := hsome 4 (.inr ⟨0x0D, by decide, .inl rfl⟩)
  exact ⟨r, hr, hreads 5 r hr⟩

end ChiffOS.Dev.Console
