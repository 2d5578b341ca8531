import ChiffOS.Lib.Numeral
import ChiffOS.Vfs.Path

/-! The formatter of the kernel, `vasprintf` of `kprintf.c`. The bound that finds the number of decimal
digits wraps before it exceeds a number above 1410065407, and a format that ends in a conversion is left. -/

namespace ChiffOS.Fmt

open Vfs Numeral

/-! ### The source -/

def uint32Max : ℕ := 2 ^ 32 - 1

/-- The loop that counts digits: the bound has one digit more in each round, as far as it has 32 bits. -/
def growWidth (base value : ℕ) : (fuel nWidth i : ℕ) → ℕ
  | 0, nWidth, _ => nWidth
  | fuel + 1, nWidth, i =>
    if value > i ∧ i < uint32Max then growWidth base value fuel (nWidth + 1)
      ((i * base + (base - 1)) % 2 ^ 32) else nWidth

/-- The loop that writes the digits, the last one first. -/
def decDigits : (i value : ℕ) → List UInt8
  | 0, _ => []
  | i + 1, value => decDigits i (value / 10) ++ [UInt8.ofNat (value % 10 + 0x30)]

def decWidth (value : ℕ) : ℕ := growWidth 10 value 32 1 9

def printDec (value width : ℕ) : CStr :=
  let nWidth := decWidth value
  List.replicate (width - nWidth) (0x30 : UInt8) ++ decDigits nWidth value

/-- `0123456789abcdef` -/
def hexTable : CStr := [0x30, 0x31, 0x32, 0x33, 0x34, 0x35, 0x36, 0x37, 0x38, 0x39, 0x61, 0x62, 0x63, 0x64,
    0x65, 0x66]

def hexWidth (value : ℕ) : ℕ := growWidth 16 value 32 1 0x0F

/-- `int i = width`: a width from 2^31 on is negative, and nothing is put in front. -/
def printHex (value width : ℕ) : CStr :=
  let i := if width = 0 then 8 else if width < 2 ^ 31 then width else 0
  let nWidth := hexWidth value
  List.replicate (i - nWidth) (0x30 : UInt8) ++ (List.range nWidth).reverse.map fun i =>
    hexTable.getD ((value >>> (i * 4)) &&& 0xF) 0

/-- What `va_arg` gives: a pointer to a string, or 32 bits. -/
inductive Arg where
  | str (s : Option CStr)
  | int (n : ℕ)
deriving DecidableEq

def nullText : CStr := [0x28, 0x6E, 0x75, 0x6C, 0x6C, 0x29]

/-- The `switch` of `vasprintf`; there is no result for an argument of the other kind. -/
def convert (argWidth : ℕ) (c : UInt8) (args : List Arg) : Option (CStr × List Arg) :=
  if c = 0x73 then
    match args with
    | .str s :: args => some (s.getD nullText, args)
    | _ => none
  else if c = 0x63 then
    match args with
    | .int n :: args => some ([UInt8.ofNat n], args)
    | _ => none
  else if c = 0x78 then
    match args with
    | .int n :: args => some (printHex n argWidth, args)
    | _ => none
  else if c = 0x64 then
    match args with
    | .int n :: args => some (printDec n argWidth, args)
    | _ => none
  else some ([c], args)

/-- What is written in each round of `vasprintf`; in a conversion, `argWidth` is the width so far. At the
end of the format inside a conversion the zero is dumped and the loop goes on behind it, which has no
result. -/
def vasprintfFrom : (argWidth : Option ℕ) → (f : CStr) → List Arg → Option (List CStr)
  | none, [], _ => some []
  | some _, [], _ => none
  | none, c :: f, args => if c ≠ 0x25 then (vasprintfFrom none f args).map ([c] :: ·) else vasprintfFrom
    (some 0) f args
  | some argWidth, c :: f, args =>
    if 0x30 ≤ c ∧ c ≤ 0x39 then vasprintfFrom (some ((argWidth * 10 + (c.toNat - 0x30)) % 2 ^ 32)) f args
    else (convert argWidth c args).bind fun r => (vasprintfFrom none f r.2).map (r.1 :: ·)

def vasprintf (fmt : CStr) (args : List Arg) : Option CStr := (vasprintfFrom none fmt args).map List.flatten

/-! ### What a format means -/

inductive Item where
  | text (c : UInt8)
  | conv (width : Option ℕ) (c : UInt8)
deriving DecidableEq

def parse : (width : Option (Option ℕ)) → (f : CStr) → Option (List Item)
  | none, [] => some []
  | some _, [] => none
  | none, c :: f => if c ≠ 0x25 then (parse none f).map (.text c :: ·) else parse (some none) f
  | some width, c :: f =>
    if 0x30 ≤ c ∧ c ≤ 0x39 then parse (some (some (width.getD 0 * 10 + (c.toNat - 0x30)))) f
    else (parse none f).map (.conv width c :: ·)

def Matching : List Item → List Arg → Prop
  | [], _ => True
  | .text _ :: items, args => Matching items args
  | .conv _ c :: items, args =>
    if c = 0x73 then ∃ s rest, args = .str s :: rest ∧ Matching items rest
    else if c = 0x63 ∨ c = 0x78 ∨ c = 0x64 then ∃ n rest, args = .int n :: rest ∧ n < 2 ^ 32 ∧
      Matching items rest
    else Matching items args

def expected (width : Option ℕ) (c : UInt8) (args : List Arg) : Option (CStr × List Arg) :=
  match args with
  | .int n :: rest =>
    if c = 0x78 then some (padTo (width.getD 8) (numeral 16 n), rest)
    else if c = 0x64 then some (padTo (width.getD 0) (numeral 10 n), rest)
    else convert 0 c args
  | _ => convert 0 c args

def expectedTexts : List Item → List Arg → Option (List CStr)
  | [], _ => some []
  | .text c :: items, args => (expectedTexts items args).map ([c] :: ·)
  | .conv width c :: items, args => (expected width c args).bind fun r =>
    (expectedTexts items r.2).map (r.1 :: ·)

/-- The format is read up to its end only, and every round writes what it is to write. -/
def Rendered (fmt : CStr) (args : List Arg) : Prop :=
  ∃ items texts, parse none fmt = some items ∧ vasprintfFrom none fmt args = some texts ∧
    expectedTexts items args = some texts

/-- Where `%d` is right: the width is filled up anyway if the bound of some smaller width, as it wraps,
holds the value. -/
def DecExact (width : Option ℕ) (n : ℕ) : Prop :=
  width.getD 0 < 2 ^ 32 ∧ (n ≤ 1410065407 ∨ ∃ k ≤ width.getD 0, n ≤ (10 ^ k - 1) % 2 ^ 32)

/-- Where `%x` is right: a width of zero is taken for none. -/
def HexExact (width : Option ℕ) (n : ℕ) : Prop := ∀ w, width = some w → w < 2 ^ 31 ∧ (w = 0 → 16 ^ 7 ≤ n)

def Exact : List Item → List Arg → Prop
  | [], _ => True
  | .text _ :: items, args => Exact items args
  | .conv width c :: items, args =>
    (∀ n, args.head? = some (.int n) → (c = 0x64 → DecExact width n) ∧ (c = 0x78 → HexExact width n)) ∧
      Exact items (if c = 0x73 ∨ c = 0x63 ∨ c = 0x78 ∨ c = 0x64 then args.tail else args)

/-! ### Digits -/

def bound (base n : ℕ) : ℕ := (base ^ n - 1) % 2 ^ 32

theorem bound_succ {base : ℕ} (hb : 0 < base) (n : ℕ) : (bound base n * base + (base - 1)) % 2 ^ 32 =
    bound base (n + 1) := by
  have hpow : 0 < base ^ n := Nat.pow_pos hb
  have hnext : (base ^ n - 1) * base + (base - 1) = base ^ (n + 1) - 1 := by
    rw [Nat.sub_mul, pow_succ, Nat.one_mul]
    have := Nat.le_mul_of_pos_left base hpow
    omega
  rw [bound, bound, ← hnext, Nat.add_mod, Nat.mod_mul_mod, ← Nat.add_mod]

/-- An even base fills all 32 bits with 32 digits. -/
theorem bound_full {base : ℕ} (hb : 2 ∣ base) (h0 : 0 < base) : bound base 32 = uint32Max := by
  obtain ⟨k, hk⟩ := pow_dvd_pow_of_dvd hb 32
  have hpos : 0 < k := Nat.pos_of_ne_zero fun h => by
    rw [h, Nat.mul_zero] at hk
    exact absurd hk (Nat.pow_pos h0).ne'
  rw [bound, hk, uint32Max]
  omega

/-- The digits that the loop counts are the fewest whose bound is reached. -/
theorem growWidth_spec {base value : ℕ} (hb : 2 ∣ base) (h0 : 0 < base) (hv : value < 2 ^ 32) (fuel : ℕ) :
    ∀ {n : ℕ}, n + fuel = 33 → 1 ≤ n →
    n ≤ 32 → (∀ j, 1 ≤ j → j < n → bound base j < value) →
    (∀ j, 1 ≤ j → j < growWidth base value fuel n (bound base n) → bound base j < value) ∧
      value ≤ bound base (growWidth base value fuel n (bound base n)) ∧
        growWidth base value fuel n (bound base n) ≤ 32 ∧
      1 ≤ growWidth base value fuel n (bound base n) := by
  induction fuel with
  | zero => intro n hn _ h32; omega
  | succ fuel ih =>
    intro n hn h1 h32 hall
    rw [growWidth, bound_succ h0]
    split_ifs with hc
    · have hlt : n < 32 := by
        refine lt_of_le_of_ne h32 fun he => ?_
        rw [he, bound_full hb h0] at hc
        exact absurd hc.2 (lt_irrefl _)
      refine ih (by omega) (by omega) hlt fun j hj hjn => ?_
      rcases (by omega : j < n ∨ j = n) with hlt' | rfl
      · exact hall j hj hlt'
      · exact hc.1
    · refine ⟨hall, ?_, h32, h1⟩
      by_contra hgt
      refine hc ⟨Nat.lt_of_not_le hgt, ?_⟩
      rw [uint32Max]
      omega

theorem bound_lt {base : ℕ} (h0 : 0 < base) (n : ℕ) : bound base n < base ^ n := by
  have hpow : 0 < base ^ n := Nat.pow_pos h0
  have := Nat.mod_le (base ^ n - 1) (2 ^ 32)
  rw [bound]
  omega

section

variable {n : ℕ} (hn : n < 2 ^ 32)
include hn

theorem decWidth_spec : (∀ j, 1 ≤ j → j < decWidth n → bound 10 j < n) ∧ n ≤ bound 10 (decWidth n) ∧
    decWidth n ≤ 32 ∧ 1 ≤ decWidth n :=
  growWidth_spec (by decide) (by decide) hn 32 rfl le_rfl (by decide) fun j hj hlt => by omega

theorem hexWidth_spec : (∀ j, 1 ≤ j → j < hexWidth n → bound 16 j < n) ∧ n ≤ bound 16 (hexWidth n) ∧
    hexWidth n ≤ 32 ∧ 1 ≤ hexWidth n :=
  growWidth_spec (by decide) (by decide) hn 32 rfl le_rfl (by decide) fun j hj hlt => by omega

theorem length_le_decWidth : (numeral 10 n).length ≤ decWidth n := by
  obtain ⟨-, hle, -, hpos⟩ := decWidth_spec hn
  exact (length_numeral_le (by decide) hpos).mpr (hle.trans_lt (bound_lt (by decide) _))

theorem length_numeral_dec : (numeral 10 n).length ≤ 10 := (length_numeral_le (by decide) (by decide)).mpr
    (hn.trans (by decide))

/-- The number of decimal digits is right as long as the bound does not wrap. -/
theorem decWidth_eq_iff : decWidth n = (numeral 10 n).length ↔ n ≤ 1410065407 := by
  obtain ⟨hall, hle, -, -⟩ := decWidth_spec hn
  have hlen := length_numeral_dec hn
  have hpos := length_numeral_pos (show 1 < 10 by decide) n
  have hwidth := length_le_decWidth hn
  constructor
  · intro he
    rw [he] at hle
    rcases (by omega : (numeral 10 n).length ≤ 9 ∨ (numeral 10 n).length = 10) with h9 | h10
    · have := (length_numeral_le (show 1 < 10 by decide) (by decide)).mp h9
      omega
    · rw [h10] at hle
      exact hle.trans (by decide)
  · intro hsmall
    refine le_antisymm (Nat.le_of_not_lt fun hlt => ?_) hwidth
    have hb := hall _ hpos hlt
    rcases (by omega : (numeral 10 n).length ≤ 9 ∨ (numeral 10 n).length = 10) with h9 | h10
    · have hv := (length_numeral_le (show 1 < 10 by decide) hpos).mp (le_refl (numeral 10 n).length)
      rw [bound, Nat.mod_eq_of_lt
        (lt_of_le_of_lt (Nat.sub_le_sub_right (Nat.pow_le_pow_right (by decide) h9) 1) (by decide))] at hb
      omega
    · rw [h10, show bound 10 10 = 1410065407 by decide] at hb
      omega

theorem hexWidth_eq : hexWidth n = (numeral 16 n).length := by
  obtain ⟨hall, hle, -, hpos⟩ := hexWidth_spec hn
  have hlen : (numeral 16 n).length ≤ 8 :=
    (length_numeral_le (by decide) (by decide)).mpr (hn.trans_eq (by decide))
  have hpos' := length_numeral_pos (show 1 < 16 by decide) n
  refine le_antisymm (Nat.le_of_not_lt fun hlt => ?_)
    ((length_numeral_le (by decide) hpos).mpr (hle.trans_lt (bound_lt (by decide) _)))
  have hb := hall _ hpos' hlt
  have hv := (length_numeral_le (show 1 < 16 by decide) hpos').mp (le_refl (numeral 16 n).length)
  rw [bound, Nat.mod_eq_of_lt (lt_of_le_of_lt (Nat.sub_le_sub_right (Nat.pow_le_pow_right (by decide) hlen) 1)
    (by decide))] at hb
  omega

end

theorem decDigits_eq (i : ℕ) : ∀ value, decDigits i value = fixedDigits 10 i value := by
  induction i with
  | zero => exact fun _ => rfl
  | succ i ih =>
    intro value
    have hdigit : UInt8.ofNat (value % 10 + 0x30) = digitByte (value % 10) := by
      rw [digitByte, if_pos (Nat.mod_lt _ (by decide)), Nat.add_comm]
    rw [decDigits, fixedDigits, ih, hdigit]

theorem hexTable_getD {d : ℕ} (h : d < 16) : hexTable.getD d 0 = digitByte d := by
  interval_cases d <;> rfl

theorem hexDigits_eq (n : ℕ) : ∀ value,
    ((List.range n).reverse.map fun i => hexTable.getD ((value >>> (i * 4)) &&& 0xF) 0) =
    fixedDigits 16 n value := by
  induction n with
  | zero => exact fun _ => rfl
  | succ n ih =>
    intro value
    have hand : ∀ x : ℕ, x &&& 0xF = x % 16 := fun x => Nat.and_two_pow_sub_one_eq_mod x 4
    have hlast : hexTable.getD ((value >>> (0 * 4)) &&& 0xF) 0 = digitByte (value % 16) := by
      rw [hand, Nat.zero_mul, Nat.shiftRight_zero, hexTable_getD (Nat.mod_lt _ (by decide))]
    have hshift : ∀ i, value >>> ((i + 1) * 4) = (value / 16) >>> (i * 4) := by
      intro i
      rw [Nat.add_mul, Nat.one_mul, Nat.add_comm, Nat.shiftRight_add, Nat.shiftRight_eq_div_pow value 4]
    rw [fixedDigits, ← ih (value / 16), List.range_succ_eq_map, List.reverse_cons, List.map_append,
      List.map_singleton, hlast, ← List.map_reverse, List.map_map]
    congr 1
    refine List.map_congr_left fun i _ => ?_
    show hexTable.getD ((value >>> ((i + 1) * 4)) &&& 0xF) 0 = _
    rw [hshift]

theorem printDec_eq {n : ℕ} (hn : n < 2 ^ 32) (width : ℕ) : printDec n width = padTo (max width (decWidth n))
    (numeral 10 n) := by
  obtain ⟨-, hle, -, hpos⟩ := decWidth_spec hn
  have hlen := length_le_decWidth hn
  rw [printDec, decDigits_eq, fixedDigits_eq (by decide) _ hpos (hle.trans_lt (bound_lt (by decide) _)),
    padTo, padTo, ← List.append_assoc,
    show (0x30 : UInt8) = digitByte 0 from rfl, List.replicate_append_replicate]
  congr 2
  omega

theorem printHex_eq {n : ℕ} (hn : n < 2 ^ 32) (width : ℕ) :
    printHex n width = padTo (if width = 0 then 8 else if width < 2 ^ 31 then width else 0)
      (numeral 16 n) := by
  have hwidth := hexWidth_eq hn
  obtain ⟨-, hle, -, hpos⟩ := hexWidth_spec hn
  rw [printHex, hexDigits_eq, fixedDigits_eq (by decide) _ hpos (hle.trans_lt (bound_lt (by decide) _)),
    hwidth, padTo, padTo, Nat.sub_self,
    List.replicate_zero, List.nil_append]
  rfl

theorem padTo_eq_iff {m n : ℕ} {l : List UInt8} : padTo m l = padTo n l ↔ m - l.length = n - l.length := by
  rw [padTo, padTo, List.append_left_inj]
  exact ⟨fun h => by simpa using congrArg List.length h, fun h => by rw [h]⟩

section

variable {n : ℕ} (hn : n < 2 ^ 32)
include hn

theorem decWidth_le_iff (w : ℕ) :
    n ≤ 1410065407 ∨ decWidth n ≤ w ↔ n ≤ 1410065407 ∨ ∃ k ≤ w, n ≤ (10 ^ k - 1) % 2 ^ 32 := by
  obtain ⟨hall, hle, -, -⟩ := decWidth_spec hn
  constructor
  · rintro (h | h)
    · exact .inl h
    · exact .inr ⟨decWidth n, h, hle⟩
  · rintro (h | ⟨k, hk, h⟩)
    · exact .inl h
    · by_contra hno
      obtain ⟨h1, h2⟩ := not_or.mp hno
      cases k with
      | zero =>
        rw [pow_zero, Nat.sub_self, Nat.zero_mod] at h
        omega
      | succ k => exact absurd h (Nat.not_le.mpr (hall (k + 1) (Nat.succ_pos k) (by omega)))

theorem printDec_exact_iff (width : Option ℕ) :
    printDec n (width.getD 0 % 2 ^ 32) = padTo (width.getD 0) (numeral 10 n) ↔ DecExact width n := by
  have hiff := decWidth_eq_iff hn
  have hlen := length_le_decWidth hn
  have h10 := length_numeral_dec hn
  have h32 := (decWidth_spec hn).2.2.1
  rw [printDec_eq hn, padTo_eq_iff, DecExact, ← decWidth_le_iff hn, ← hiff]
  omega

theorem printHex_exact_iff (width : Option ℕ) :
    printHex n (width.getD 0 % 2 ^ 32) = padTo (width.getD 8) (numeral 16 n) ↔ HexExact width n := by
  have h8 : (numeral 16 n).length ≤ 8 :=
    (length_numeral_le (by decide) (by decide)).mpr (hn.trans_eq (by decide))
  have h7 : (numeral 16 n).length ≤ 7 ↔ n < 16 ^ 7 := length_numeral_le (by decide) (by decide)
  rw [printHex_eq hn, padTo_eq_iff]
  cases width with
  | none => exact ⟨fun _ w hw => absurd hw (Option.some_ne_none w).symm, fun _ => rfl⟩
  | some w =>
    have hexact : HexExact (some w) n ↔ w < 2 ^ 31 ∧ (w = 0 → 16 ^ 7 ≤ n) :=
      ⟨fun h => h w rfl, fun h w' hw => Option.some.inj hw ▸ h⟩
    rw [hexact, Option.getD_some, Option.getD_some]
    split_ifs <;> omega

end

/-! ### The format -/

/-- Inside a conversion the code has the width in 32 bits. -/
def reduced (width : Option (Option ℕ)) : Option ℕ := width.map fun w => w.getD 0 % 2 ^ 32

def argsBehind (c : UInt8) (args : List Arg) : List Arg := if c = 0x73 ∨ c = 0x63 ∨ c = 0x78 ∨ c =
    0x64 then args.tail else args

/-- A conversion takes its argument, and is right under its condition. -/
theorem convert_spec {width : Option ℕ} {c : UInt8} {items : List Item} {args : List Arg}
    (h : Matching (.conv width c :: items) args) :
    Matching items (argsBehind c args) ∧ ∃ text text', convert (width.getD 0 % 2 ^ 32) c args =
      some (text, argsBehind c args) ∧
      expected width c args = some (text', argsBehind c args) ∧
      (text = text' ↔ ∀ n, args.head? = some (.int n) → (c = 0x64 → DecExact width n) ∧
        (c = 0x78 → HexExact width n)) := by
  rw [Matching] at h
  by_cases hs : c = 0x73
  · subst hs
    obtain ⟨s, rest, rfl, hm⟩ := h
    exact ⟨hm, _, _, rfl, rfl, ⟨fun _ n hn => absurd hn (by simp), fun _ => rfl⟩⟩
  rw [if_neg hs] at h
  by_cases hc : c = 0x63
  · subst hc
    obtain ⟨n, rest, rfl, -, hm⟩ := h
    exact ⟨hm, _, _, rfl, rfl,
      ⟨fun _ n _ => ⟨fun hn => absurd hn (by decide), fun hn => absurd hn (by decide)⟩, fun _ => rfl⟩⟩
  by_cases hx : c = 0x78
  · subst hx
    obtain ⟨n, rest, rfl, hn, hm⟩ := h
    refine ⟨hm, _, _, rfl, rfl, (printHex_exact_iff hn width).trans ⟨fun he m hm' => ?_, fun he =>
      (he n rfl).2 rfl⟩⟩
    obtain rfl := Arg.int.inj (Option.some.inj hm')
    exact ⟨fun hn => absurd hn (by decide), fun _ => he⟩
  by_cases hd : c = 0x64
  · subst hd
    obtain ⟨n, rest, rfl, hn, hm⟩ := h
    refine ⟨hm, _, _, rfl, rfl, (printDec_exact_iff hn width).trans ⟨fun he m hm' => ?_, fun he =>
      (he n rfl).1 rfl⟩⟩
    obtain rfl := Arg.int.inj (Option.some.inj hm')
    exact ⟨fun _ => he, fun hn => absurd hn (by decide)⟩
  · have hother : ¬ (c = 0x63 ∨ c = 0x78 ∨ c = 0x64) := by simp [hc, hx, hd]
    have hrest : argsBehind c args = args := if_neg (by simp [hs, hc, hx, hd])
    have hconvert : ∀ w, convert w c args = some ([c], args) := by
      intro w
      unfold convert
      rw [if_neg hs, if_neg hc, if_neg hx, if_neg hd]
    have hexpected : expected width c args = some ([c], args) := by
      unfold expected
      split
      · rw [if_neg hx, if_neg hd, hconvert]
      · exact hconvert 0
    rw [if_neg hother] at h
    rw [hrest]
    exact ⟨h, _, _, hconvert _, hexpected, ⟨fun _ n _ => ⟨fun hn => absurd hn hd, fun hn => absurd hn hx⟩,
      fun _ => rfl⟩⟩

theorem vasprintfFrom_complete (f : CStr) :
    ∀ {width : Option (Option ℕ)} {args : List Arg} {items : List Item},
    parse width f = some items → Matching items args → ∃ texts texts', vasprintfFrom (reduced width) f args =
      some texts ∧
      expectedTexts items args = some texts' ∧ (texts = texts' ↔ Exact items args) := by
  induction f with
  | nil =>
    intro width args items h _
    cases width with
    | none =>
      obtain rfl := Option.some.inj h
      exact ⟨[], [], rfl, rfl, iff_of_true rfl trivial⟩
    | some w => exact absurd h (Option.some_ne_none _).symm
  | cons c f ih =>
    intro width args items h hm
    cases width with
    | none =>
      rw [parse] at h
      show ∃ _ _, vasprintfFrom none (c :: f) args = _ ∧ _
      rw [vasprintfFrom]
      split_ifs at h ⊢
      · obtain ⟨items, hitems, rfl⟩ := Option.map_eq_some_iff.mp h
        obtain ⟨texts, texts', ht, ht', hiff⟩ := ih hitems hm
        refine ⟨[c] :: texts, [c] :: texts', ?_, ?_, ?_⟩
        · exact Option.map_eq_some_iff.mpr ⟨texts, ht, rfl⟩
        · exact Option.map_eq_some_iff.mpr ⟨texts', ht', rfl⟩
        · exact (List.cons_inj_right _).trans hiff
      · exact ih h hm
    | some w =>
      rw [parse] at h
      show ∃ _ _, vasprintfFrom (some (w.getD 0 % 2 ^ 32)) (c :: f) args = _ ∧ _
      rw [vasprintfFrom]
      split_ifs at h ⊢
      · have hmod : (w.getD 0 % 2 ^ 32 * 10 + (c.toNat - 0x30)) % 2 ^ 32 =
          (w.getD 0 * 10 + (c.toNat - 0x30)) % 2 ^ 32 := by omega
        rw [hmod]
        exact ih h hm
      · obtain ⟨items, hitems, rfl⟩ := Option.map_eq_some_iff.mp h
        obtain ⟨hrest, text, text', hc, hc', hexact⟩ := convert_spec hm
        obtain ⟨texts, texts', ht, ht', hiff⟩ := ih hitems hrest
        refine ⟨text :: texts, text' :: texts', ?_, ?_, ?_⟩
        · exact Option.bind_eq_some_iff.mpr ⟨_, hc, Option.map_eq_some_iff.mpr ⟨texts, ht, rfl⟩⟩
        · exact Option.bind_eq_some_iff.mpr ⟨_, hc', Option.map_eq_some_iff.mpr ⟨texts', ht', rfl⟩⟩
        · rw [List.cons.injEq, hexact, hiff]
          rfl

/-- A format is rendered as it means exactly if it is complete and each number is one that its conversion
can do. -/
theorem vasprintf_renders_iff (fmt : CStr) (args : List Arg)
    (hm : ∀ items, parse none fmt = some items → Matching items args) :
    Rendered fmt args ↔ ∃ items, parse none fmt = some items ∧ Exact items args := by
  constructor
  · rintro ⟨items, texts, hp, ht, ht'⟩
    obtain ⟨texts₁, texts₂, h1, h2, hiff⟩ := vasprintfFrom_complete fmt hp (hm items hp)
    refine ⟨items, hp, hiff.mp ?_⟩
    rw [← Option.some_inj, ← h1, ← h2, ht']
    exact ht
  · rintro ⟨items, hp, hexact⟩
    obtain ⟨texts, texts', h1, h2, hiff⟩ := vasprintfFrom_complete fmt hp (hm items hp)
    exact ⟨items, texts, hp, h1, h2.trans (congrArg some (hiff.mpr hexact).symm)⟩

theorem vasprintf_renders_hex : Rendered [0x25, 0x34, 0x78] [.int 255] := by
  have hparse : parse none [0x25, 0x34, 0x78] = some [.conv (some 4) 0x78] := by decide
  refine (vasprintf_renders_iff [0x25, 0x34, 0x78] [.int 255] ?_).mpr ⟨_, hparse, ?_, trivial⟩
  · intro items h
    obtain rfl := Option.some.inj (hparse.symm.trans h)
    exact ⟨255, [], rfl, by decide, trivial⟩
  · intro n _
    refine ⟨fun h => absurd h (by decide), fun _ w hw => ?_⟩
    obtain rfl := Option.some.inj hw
    exact ⟨by decide, fun h => absurd h (by decide)⟩

/-- `%d` of the largest number has 32 digits, and a format that ends in `%` is left. -/
theorem vasprintf_not_rendered : vasprintf [0x25, 0x64] [.int 4294967295] =
    some (List.replicate 22 0x30 ++ [0x34, 0x32, 0x39, 0x34,
    0x39, 0x36, 0x37, 0x32, 0x39, 0x35]) ∧ ¬ Rendered [0x25, 0x64] [.int 4294967295] ∧ vasprintf [0x25] [] =
      none ∧ ¬ Rendered [0x25] [] := by
  refine ⟨by decide +kernel, ?_, rfl, ?_⟩
  · rintro ⟨items, texts, hp, h1, h2⟩
    obtain rfl :=
      Option.some.inj ((show parse none [0x25, 0x64] = some [.conv none 0x64] by decide).symm.trans hp)
    have hexact : vasprintfFrom none [0x25, 0x64] [.int 4294967295] ≠ expectedTexts [.conv none 0x64]
      [.int 4294967295] := by decide +kernel
    exact hexact (h1.trans h2.symm)
  · rintro ⟨items, texts, hp, -, -⟩
    exact absurd hp (Option.some_ne_none items).symm

end ChiffOS.Fmt
