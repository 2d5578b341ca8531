import ChiffOS.Lib.Bytes
import ChiffOS.Lib.Numeral

/-! The formatter behind `printk`, `vsnprintf` of `vsprintf.c` with its `number`. A byte is stored only up
to the end of the buffer, while the pointer goes on behind it. -/

namespace ChiffOS.Fmt.Vsnprintf

open Numeral

/-! ### Output -/

/-- The pointer as an offset into the buffer, the buffer, and what `%n` has stored under which address. -/
structure Out where
  pos : ℕ
  buf : Buf
  stored : List (ℕ × ℕ)

namespace Out

/-- `if (str <= end) *str = c; ++str;`, with `lim` for `end + 1`. -/
def put (lim : ℕ) (c : UInt8) (o : Out) : Out :=
  { o with pos := o.pos + 1, buf := if o.pos < lim then Function.update o.buf o.pos c else o.buf }

def puts (lim : ℕ) (cs : List UInt8) (o : Out) : Out := cs.foldl (fun o c => o.put lim c) o

def padLoop (lim : ℕ) (c : UInt8) (size : ℤ) (o : Out) : ℤ × Out :=
  if 0 < size then padLoop lim c (size - 1) (o.put lim c) else (size - 1, o)
termination_by size.toNat

end Out

/-! ### Numbers -/

structure Flags where
  zeropad : Bool
  sign : Bool
  plus : Bool
  space : Bool
  left : Bool
  special : Bool
  large : Bool

/-- `do_div`: the high word is divided first, and `divl` divides its rest with the low word behind it. -/
def doDiv (n base : ℕ) : ℕ × ℕ :=
  let low := n % 2 ^ 32
  let high := n / 2 ^ 32
  let upper := if high ≠ 0 then high % base else high
  let high := if high ≠ 0 then high / base else high
  (high * 2 ^ 32 + (upper * 2 ^ 32 + low) / base, (upper * 2 ^ 32 + low) % base)

def digits (large : Bool) (d : ℕ) : UInt8 := if large then UInt8.ofNat
    (if d < 10 then 0x30 + d else 0x37 + d) else digitByte d

/-- The loop that fills `tmp`, the lowest digit first. -/
def digitLoop (large : Bool) (base : ℕ) : (fuel num : ℕ) → List UInt8
  | 0, _ => []
  | fuel + 1, num =>
    if num = 0 then [] else digits large (doDiv num base).2 :: digitLoop large base fuel (doDiv num base).1

def tmp (large : Bool) (base num : ℕ) : List UInt8 := if num = 0 then [0x30] else digitLoop large base 64 num

/-- The sign, the number without it and the width that is left; `num` has 64 bits. -/
def takeSign (num : ℕ) (size : ℤ) (type : Flags) : List UInt8 × ℕ × ℤ :=
  if type.sign then
    if 2 ^ 63 ≤ num then ([0x2D], ((-(num : ℤ)) % 2 ^ 64).toNat, size - 1)
    else if type.plus then ([0x2B], num, size - 1)
    else if type.space then ([0x20], num, size - 1)
    else ([], num, size)
  else ([], num, size)

def specialText (base : ℕ) (type : Flags) : List UInt8 :=
  if type.special then
    if base = 8 then [0x30] else if base = 16 then [0x30, digits type.large 33] else []
  else []

def number (lim num base : ℕ) (size precision : ℤ) (type : Flags) (o : Out) : Out :=
  let type := if type.left then { type with zeropad := false } else type
  let c : UInt8 := if type.zeropad then 0x30 else 0x20
  let (sign, num, size) := takeSign num size type
  let size := size - (specialText base type).length
  let tmp := tmp type.large base num
  let precision := if (tmp.length : ℤ) > precision then (tmp.length : ℤ) else precision
  let size := size - precision
  let (size, o) := if type.zeropad || type.left then (size, o) else o.padLoop lim 0x20 size
  let o := (o.puts lim sign).puts lim (specialText base type)
  let (size, o) := if type.left then (size, o) else o.padLoop lim c size
  let o := (o.padLoop lim 0x30 (precision - tmp.length)).2
  let o := o.puts lim tmp.reverse
  (o.padLoop lim 0x20 size).2

/-! ### Formats -/

/-- What `va_arg` gives: 32 bits, 64 bits, or a string. -/
inductive Arg where
  | word (n : ℕ)
  | wide (n : ℕ)
  | str (s : Option (List UInt8))

def takeWord : List Arg → Option (ℕ × List Arg)
  | .word n :: args => some (n, args)
  | _ => none

def takeStr : List Arg → Option (Option (List UInt8) × List Arg)
  | .str s :: args => some (s, args)
  | _ => none

def nullText : List UInt8 := [0x3C, 0x4E, 0x55, 0x4C, 0x4C, 0x3E]

def signExtend (w n : ℕ) : ℕ := ((if n < 2 ^ (w - 1) then (n : ℤ) else (n : ℤ) - 2 ^ w) % 2 ^ 64).toNat

def takeNumber (qualifier : Option UInt8) (sign : Bool) : List Arg → Option (ℕ × List Arg)
  | .wide n :: args => if qualifier = some 0x4C then some (n, args) else none
  | .word n :: args =>
    if qualifier = some 0x4C then none
    else if qualifier = some 0x5A then some (signExtend 32 n, args)
    else if qualifier = some 0x68 then some (if sign then signExtend 16 (n % 2 ^ 16) else n % 2 ^ 16, args)
    else some (if sign then signExtend 32 n else n, args)
  | _ => none

/-- The conversion `c`; no result for an argument that is missing or of another kind. -/
def convert (lim : ℕ) (flags : Flags) (width precision : ℤ) (qualifier : Option UInt8) (c : UInt8)
    (args : List Arg) (o : Out) :
    Option (List Arg × Out) :=
  let integer (base : ℕ) (flags : Flags) : Option (List Arg × Out) :=
    (takeNumber qualifier flags.sign args).bind fun r =>
      some (r.2, number lim r.1 base width precision flags o)
  if c = 0x63 then (takeWord args).bind fun r =>
    let (size, o) := if flags.left then (width - 1, o) else o.padLoop lim 0x20 (width - 1)
    some (r.2, ((o.put lim (UInt8.ofNat r.1)).padLoop lim 0x20 size).2)
  else if c = 0x73 then (takeStr args).bind fun r =>
    let s := r.1.getD nullText
    let text := if precision < 0 then s else s.take precision.toNat
    let (size, o) := if flags.left then (width - text.length, o) else o.padLoop lim 0x20 (width - text.length)
    some (r.2, ((o.puts lim text).padLoop lim 0x20 size).2)
  else if c = 0x70 then (takeWord args).bind fun r =>
    if width = -1 then some (r.2, number lim r.1 16 8 precision { flags with zeropad := true } o)
    else some (r.2, number lim r.1 16 width precision flags o)
  else if c = 0x6E then (takeWord args).bind fun r =>
    some (r.2, { o with stored := o.stored ++ [(r.1, o.pos)] })
  else if c = 0x25 then some (args, o.put lim 0x25)
  else if c = 0x6F then integer 8 flags
  else if c = 0x58 then integer 16 { flags with large := true }
  else if c = 0x78 then integer 16 flags
  else if c = 0x64 ∨ c = 0x69 then integer 10 { flags with sign := true }
  else if c = 0x75 then integer 10 flags
  else some (args, o.puts lim [0x25, c])

/-- Where in the format the loop is. -/
inductive Mode where
  | text
  | flags (flags : Flags)
  | width (flags : Flags) (width : ℤ)
  | star (flags : Flags) (width : ℤ)
  | dot (flags : Flags) (width : ℤ)
  | precision (flags : Flags) (width precision : ℤ)
  | dotStar (flags : Flags) (width precision : ℤ)
  | qualified (flags : Flags) (width precision : ℤ) (qualifier : UInt8)
  | long (flags : Flags) (width precision : ℤ)

def isdigit (c : UInt8) : Prop := 0x30 ≤ c ∧ c ≤ 0x39

instance (c : UInt8) : Decidable (isdigit c) := by unfold isdigit; infer_instance

/-- One more digit of a width or a precision, as far as an `int` goes. -/
def nextDigit (i : ℤ) (c : UInt8) : Option ℤ :=
  if i * 10 + c.toNat < 2 ^ 31 then some (i * 10 + c.toNat - 0x30) else none

def toInt (n : ℕ) : ℤ := if n < 2 ^ 31 then n else (n : ℤ) - 2 ^ 32

def noFlags : Flags := ⟨false, false, false, false, false, false, false⟩

def setFlag (flags : Flags) (c : UInt8) : Option Flags :=
  if c = 0x2D then some { flags with left := true }
  else if c = 0x2B then some { flags with plus := true }
  else if c = 0x20 then some { flags with space := true }
  else if c = 0x23 then some { flags with special := true }
  else if c = 0x30 then some { flags with zeropad := true }
  else none

section Turn

variable (lim : ℕ) (flags : Flags) (width precision : ℤ) (c : UInt8) (args : List Arg) (o : Out)

def atQualifier : Option ((Mode × List Arg) × Out) :=
  if c = 0x68 ∨ c = 0x6C ∨ c = 0x4C ∨ c = 0x5A then some ((.qualified flags width precision c, args), o)
  else (convert lim flags width precision none c args o).map fun r => ((.text, r.1), r.2)

def atDot : Option ((Mode × List Arg) × Out) :=
  if c = 0x2E then some ((.dot flags width, args), o) else atQualifier lim flags width (-1) c args o

def atWidth : Option ((Mode × List Arg) × Out) :=
  if isdigit c then some ((.width flags (c.toNat - 0x30), args), o)
  else if c = 0x2A then (takeWord args).bind fun r =>
    -- the least `int` has no negative
    if toInt r.1 = -2 ^ 31 then none
    else if toInt r.1 < 0 then some ((.star { flags with left := true } (-toInt r.1), r.2), o)
    else some ((.star flags (toInt r.1), r.2), o)
  else atDot lim flags (-1) c args o

def turn (mode : Mode) : Option ((Mode × List Arg) × Out) :=
  match mode with
  | .text => if c ≠ 0x25 then some ((.text, args), o.put lim c) else some ((.flags noFlags, args), o)
  | .flags flags =>
    match setFlag flags c with
    | some flags => some ((.flags flags, args), o)
    | none => atWidth lim flags c args o
  | .width flags width =>
    if isdigit c then (nextDigit width c).bind fun width => some ((.width flags width, args), o)
    else atDot lim flags width c args o
  | .star flags width => atDot lim flags width c args o
  | .dot flags width =>
    if isdigit c then some ((.precision flags width (c.toNat - 0x30), args), o)
    else if c = 0x2A then (takeWord args).bind fun r =>
      some ((.dotStar flags width (if toInt r.1 < 0 then 0 else toInt r.1), r.2), o)
    else atQualifier lim flags width 0 c args o
  | .precision flags width precision =>
    if isdigit c then (nextDigit precision c).bind fun precision =>
      some ((.precision flags width precision, args), o)
    else atQualifier lim flags width precision c args o
  | .dotStar flags width precision => atQualifier lim flags width precision c args o
  | .qualified flags width precision qualifier =>
    if qualifier = 0x6C ∧ c = 0x6C then some ((.long flags width precision, args), o)
    else (convert lim flags width precision (some qualifier) c args o).map fun r => ((.text, r.1), r.2)
  | .long flags width precision => (convert lim flags width precision (some 0x4C) c args o).map fun r =>
    ((.text, r.1), r.2)

end Turn

/-- The loop of `vsnprintf`. The end of the format inside a conversion counts as an unknown one. -/
def vsnprintfFrom (lim : ℕ) : Mode → (fmt : List UInt8) → List Arg → Out → Option Out
  | .text, [], _, o => some o
  | _, [], _, o => some (o.put lim 0x25)
  | mode, c :: fmt, args, o => (turn lim c args o mode).bind fun r => vsnprintfFrom lim r.1.1 fmt r.1.2 r.2

def finish (lim : ℕ) (o : Out) : Buf :=
  if o.pos < lim then Function.update o.buf o.pos 0
  else if 0 < lim then Function.update o.buf (lim - 1) 0
  else o.buf

/-- The buffer is not at address 0, neither its end nor the pointer behind `len` bytes wraps, and the size
and the length are positive as an `int`. -/
def InMemory (addr size len : ℕ) : Prop :=
  0 < addr ∧ size < 2 ^ 31 ∧ addr + size < 2 ^ 32 ∧ len < 2 ^ 31 ∧ addr + len < 2 ^ 32

instance (addr size len : ℕ) : Decidable (InMemory addr size len) := inferInstanceAs (Decidable (_ ∧ _))

/-- `vsnprintf`: the returned length, the buffer, and what `%n` stores. Where an address or a size wraps, as
the size of `vsprintf` does, there is no result. -/
def vsnprintf (addr size : ℕ) (buf : Buf) (fmt : List UInt8) (args : List Arg) :
    Option (ℕ × Buf × List (ℕ × ℕ)) :=
  (vsnprintfFrom size .text fmt args ⟨0, buf, []⟩).bind fun o =>
    if InMemory addr size o.pos then some (o.pos, finish size o, o.stored) else none

/-! ### What is stored -/

namespace Out

variable (lim : ℕ) (o : Out)

@[simp] theorem puts_nil : o.puts lim [] = o := rfl

theorem puts_cons (c : UInt8) (cs : List UInt8) : o.puts lim (c :: cs) = (o.put lim c).puts lim cs := rfl

theorem puts_puts (cs ds : List UInt8) : (o.puts lim cs).puts lim ds = o.puts lim (cs ++ ds) :=
    List.foldl_append.symm

/-- The bytes go to the places behind the pointer, as far as they are in the buffer. -/
theorem puts_eq : ∀ (cs : List UInt8) (o : Out), o.puts lim cs = ⟨o.pos + cs.length,
    fun i => if o.pos ≤ i ∧ i < o.pos + cs.length ∧ i < lim then cs.getD (i - o.pos) 0 else o.buf i,
      o.stored⟩ := by
  intro cs
  induction cs with
  | nil =>
    intro o
    have hbuf : o.buf = fun i => if o.pos ≤ i ∧ i < o.pos + 0 ∧
      i < lim then ([] : List UInt8).getD (i - o.pos) 0 else o.buf i :=
      funext fun i => (if_neg (by omega)).symm
    rw [puts_nil, List.length_nil, ← hbuf]
    rfl
  | cons c cs ih =>
    intro o
    rw [puts_cons, ih, put, List.length_cons, Out.mk.injEq]
    refine ⟨by dsimp only; omega, funext fun i => ?_, rfl⟩
    dsimp only
    by_cases hi : i = o.pos
    · subst hi
      rw [if_neg (by omega)]
      by_cases hl : o.pos < lim
      · rw [if_pos hl, Function.update_self, if_pos (by omega), Nat.sub_self]
        rfl
      · rw [if_neg hl, if_neg (by omega)]
    · have hkeep : (if o.pos < lim then Function.update o.buf o.pos c else o.buf) i = o.buf i := by
        split
        · exact Function.update_of_ne hi _ _
        · rfl
      rw [hkeep]
      by_cases hin : o.pos + 1 ≤ i ∧ i < o.pos + 1 + cs.length ∧ i < lim
      · rw [if_pos hin, if_pos (by omega), show i - o.pos = i - (o.pos + 1) + 1 by omega, List.getD_cons_succ]
      · rw [if_neg hin, if_neg (by omega)]

theorem padLoop_eq (c : UInt8) (size : ℤ) (o : Out) :
    (o.padLoop lim c size).1.toNat = 0 ∧ (o.padLoop lim c size).2 =
      o.puts lim (List.replicate size.toNat c) := by
  induction hn : size.toNat generalizing size o with
  | zero =>
    rw [padLoop, if_neg (by omega)]
    exact ⟨by dsimp only; omega, rfl⟩
  | succ n ih =>
    rw [padLoop, if_pos (by omega)]
    exact ih (size - 1) (o.put lim c) (by omega)

end Out

def numberText (num base : ℕ) (size precision : ℤ) (type : Flags) : List UInt8 :=
  let r := takeSign num size type
  let front := r.1 ++ specialText base type
  let digits := (tmp type.large base r.2.1).reverse
  let body := List.replicate (precision - digits.length).toNat 0x30 ++ digits
  let pad := (r.2.2 - (specialText base type).length - max (digits.length : ℤ) precision).toNat
  if type.left then front ++ body ++ List.replicate pad 0x20
  else if type.zeropad then front ++ List.replicate pad 0x30 ++ body
  else List.replicate pad 0x20 ++ front ++ body

theorem number_eq (lim num base : ℕ) (size precision : ℤ) (type : Flags) (o : Out) :
    number lim num base size precision type o = o.puts lim (numberText num base size precision type) := by
  have hmax : ∀ n : ℕ, (if (n : ℤ) > precision then (n : ℤ) else precision) = max (n : ℤ) precision := by
    intro n
    split <;> omega
  have hzeros : ∀ n : ℕ, (max (n : ℤ) precision - n).toNat = (precision - n).toNat := by
    intro n
    omega
  have hpad := fun c size o => (Out.padLoop_eq lim c size o).2
  have hnone := fun c size o => (Out.padLoop_eq lim c size o).1
  obtain ⟨zeropad, sign, plus, space, left, special, large⟩ := type
  unfold number numberText takeSign specialText
  cases left with
  | true => simp only [if_true, Bool.or_true, List.length_reverse, hmax, hpad, hzeros, Out.puts_puts,
    List.append_assoc]
  | false =>
    cases zeropad <;>
      simp only [if_true, if_false, Bool.false_eq_true, Bool.or_false, Bool.or_self, List.length_reverse,
        hmax, hpad, hnone, hzeros, Out.puts_puts, List.append_assoc, List.replicate_zero, List.append_nil]

theorem doDiv_eq {base : ℕ} (hb : 0 < base) (n : ℕ) : doDiv n base = (n / base, n % base) := by
  have hsplit : n = n / 2 ^ 32 % base * 2 ^ 32 + n % 2 ^ 32 + n / 2 ^ 32 / base * 2 ^ 32 * base := by
    nlinarith [Nat.div_add_mod (n / 2 ^ 32) base, Nat.div_add_mod n (2 ^ 32)]
  have hhigh : ∀ f : ℕ → ℕ, f 0 = 0 → (if n / 2 ^ 32 ≠ 0 then f (n / 2 ^ 32) else n / 2 ^ 32) =
    f (n / 2 ^ 32) := by
    intro f hf
    split
    · rfl
    · next h => rw [not_not.mp h, hf]
  unfold doDiv
  dsimp only
  rw [hhigh (· % base) (Nat.zero_mod _), hhigh (· / base) (Nat.zero_div _)]
  conv_rhs => rw [hsplit, Nat.add_mul_div_right _ _ hb, Nat.add_mul_mod_self_right, Nat.add_comm]

theorem digitLoop_eq {base : ℕ} (hb : 1 < base) : ∀ fuel num, num < base ^ fuel →
    digitLoop false base fuel num = (Nat.digits base num).map digitByte := by
  intro fuel
  induction fuel with
  | zero => exact fun num h => by simp [Nat.lt_one_iff.mp h, digitLoop]
  | succ fuel ih =>
    intro num h
    by_cases h0 : num = 0
    · simp [digitLoop, h0]
    · have hdiv : num / base < base ^ fuel := (Nat.div_lt_iff_lt_mul (by omega)).mpr (by rwa [← pow_succ])
      rw [digitLoop, if_neg h0, doDiv_eq (by omega), ih _ hdiv, Nat.digits_def' hb (Nat.pos_of_ne_zero h0)]
      rfl

/-- A number without flags is written as its numeral. -/
theorem number_plain (lim num base : ℕ) (hb : base ∈ Set.Icc 2 36) (h : num < 2 ^ 64) (o : Out) :
    number lim num base (-1) (-1) noFlags o = o.puts lim (numeral base num) := by
  have htmp : (tmp false base num).reverse = numeral base num := by
    unfold tmp numeral
    split
    · rfl
    · rw [digitLoop_eq hb.1 64 num (h.trans_le (Nat.pow_le_pow_left hb.1 64))]
  have hpad : ∀ n : ℕ, (-1 - (n : ℤ)).toNat = 0 ∧ (-1 - max (n : ℤ) (-1)).toNat = 0 := fun n => by omega
  rw [number_eq, numberText]
  simp [takeSign, specialText, noFlags, htmp, hpad]

theorem number_plain_wide : (List.range 12).map
    (number 20 90000000001 10 (-1) (-1) noFlags ⟨0, fun _ => 7, []⟩).buf =
      [0x39, 0x30, 0x30, 0x30, 0x30, 0x30, 0x30, 0x30, 0x30, 0x30, 0x31, 7] := by
  rw [number_plain 20 90000000001 10 (by simp) (by decide), Out.puts_eq]
  simp [numeral, digitByte, List.range_succ]

/-! ### Buffers of any size -/

def Out.note (o : Out) (stored : List (ℕ × ℕ)) : Out := { o with stored := o.stored ++ stored }

theorem Out.note_puts (lim : ℕ) (stored : List (ℕ × ℕ)) (cs : List UInt8) (o : Out) :
    (o.note stored).puts lim cs = (o.puts lim cs).note stored := by
  rw [puts_eq, puts_eq]
  rfl

theorem Out.note_note (o : Out) (a b : List (ℕ × ℕ)) : (o.note a).note b = o.note (a ++ b) := by
  simp only [Out.note, List.append_assoc]

/-- The bytes that are written do not depend on the buffer nor on its size. -/
def Uniform {α : Type} (pos : ℕ) (f : ℕ → Out → Option (α × Out)) : Prop :=
  ∃ r : Option (α × List UInt8 × List (ℕ × ℕ)),
    ∀ lim o, o.pos = pos → f lim o = r.map fun x => (x.1, (o.puts lim x.2.1).note x.2.2)

namespace Uniform

variable {α β : Type} {pos : ℕ} {f g : ℕ → Out → Option (α × Out)}

theorem none : Uniform pos fun _ _ => (Option.none : Option (α × Out)) := ⟨Option.none, fun _ _ _ => rfl⟩

theorem puts (a : α) (cs : List UInt8) : Uniform pos fun lim o => some (a, o.puts lim cs) := by
  refine ⟨some (a, cs, []), fun lim o _ => ?_⟩
  simp only [Option.map_some, Out.note, List.append_nil]

theorem map (h : α → β) (hf : Uniform pos f) : Uniform pos fun lim o => (f lim o).map fun x =>
    (h x.1, x.2) := by
  obtain ⟨r, hr⟩ := hf
  refine ⟨r.map fun x => (h x.1, x.2), fun lim o ho => ?_⟩
  dsimp only
  rw [hr lim o ho, Option.map_map, Option.map_map]
  rfl

theorem bind (r : Option β) {f : β → ℕ → Out → Option (α × Out)} (hf : ∀ b, Uniform pos (f b)) :
    Uniform pos fun lim o => r.bind fun b => f b lim o := by
  cases r with
  | none => exact .none
  | some b => exact hf b

theorem ite {c : Prop} [Decidable c] (hf : Uniform pos f) (hg : Uniform pos g) :
    Uniform pos fun lim o => if c then f lim o else g lim o := by
  by_cases hc : c
  · simpa only [if_pos hc] using hf
  · simpa only [if_neg hc] using hg

end Uniform

variable {pos : ℕ} (flags : Flags) (width precision : ℤ) (c : UInt8) (args : List Arg)

theorem number_uniform (num base : ℕ) : Uniform pos fun lim o =>
    some (args, number lim num base width precision flags o) := by
  simp only [number_eq]
  exact .puts _ _

theorem field_uniform (left : Bool) (size : ℤ) (text : List UInt8) :
    Uniform pos fun lim o => some (args,
      (((if left then (size, o) else o.padLoop lim 0x20 size).2.puts lim text).padLoop lim 0x20
        (if left then (size, o) else o.padLoop lim 0x20 size).1).2) := by
  cases left <;> simp only [if_true, if_false, Bool.false_eq_true, (Out.padLoop_eq _ _ _ _).2,
    (Out.padLoop_eq _ _ _ _).1, Out.puts_puts] <;>
    exact .puts _ _

theorem convert_uniform (qualifier : Option UInt8) :
    Uniform pos fun lim o => convert lim flags width precision qualifier c args o := by
  have hinteger : ∀ base flags, Uniform pos fun lim o => (takeNumber qualifier flags.sign args).bind fun r =>
      some (r.2, number lim r.1 base width precision flags o) := fun base flags => .bind _ fun r =>
        number_uniform ..
  unfold convert
  refine .ite (.bind _ fun r => field_uniform _ _ _ [UInt8.ofNat r.1])
    (.ite (.bind _ fun r => field_uniform ..)
    (.ite (.bind _ fun r => .ite (number_uniform ..) (number_uniform ..)) (.ite (.bind _ fun r => ?_)
    (.ite (.puts _ [0x25]) (.ite (hinteger _ _) (.ite (hinteger _ _) (.ite (hinteger _ _) (.ite (hinteger _ _)
    (.ite (hinteger _ _) (.puts _ _))))))))))
  refine ⟨some (r.2, [], [(r.1, pos)]), fun lim o ho => ?_⟩
  simp only [Option.map_some, Out.puts_nil, Out.note, ho]

theorem atQualifier_uniform : Uniform pos fun lim o => atQualifier lim flags width precision c args o :=
  .ite (.puts _ []) ((convert_uniform flags width precision c args none).map fun args => (Mode.text, args))

theorem atDot_uniform : Uniform pos fun lim o => atDot lim flags width c args o :=
  .ite (.puts _ []) (atQualifier_uniform ..)

theorem atWidth_uniform : Uniform pos fun lim o => atWidth lim flags c args o :=
  .ite (.puts _ []) (.ite (.bind _ fun _ => .ite .none (.ite (.puts _ []) (.puts _ []))) (atDot_uniform ..))

theorem turn_uniform (mode : Mode) : Uniform pos fun lim o => turn lim c args o mode := by
  cases mode with
  | text => exact .ite (.puts _ [c]) (.puts _ [])
  | flags flags =>
    cases hflag : setFlag flags c with
    | none =>
      simp only [turn, hflag]
      exact atWidth_uniform flags c args
    | some flags =>
      simp only [turn, hflag]
      exact .puts _ []
  | width flags width => exact .ite (.bind _ fun _ => .puts _ []) (atDot_uniform ..)
  | star flags width => exact atDot_uniform ..
  | dot flags width => exact .ite (.puts _ []) (.ite (.bind _ fun _ => .puts _ []) (atQualifier_uniform ..))
  | precision flags width precision => exact .ite (.bind _ fun _ => .puts _ []) (atQualifier_uniform ..)
  | dotStar flags width precision => exact atQualifier_uniform ..
  | qualified flags width precision qualifier =>
    exact .ite (.puts _ []) ((convert_uniform ..).map fun args => (Mode.text, args))
  | long flags width precision => exact (convert_uniform ..).map fun args => (Mode.text, args)

/-- What one byte of the format writes is followed by what the rest writes. -/
theorem vsnprintfFrom_uniform : ∀ (fmt : List UInt8) (mode : Mode) (args : List Arg) (pos : ℕ),
    ∃ r : Option (List UInt8 × List (ℕ × ℕ)), ∀ lim o, o.pos = pos →
      vsnprintfFrom lim mode fmt args o = r.map fun x => (o.puts lim x.1).note x.2 := by
  intro fmt
  induction fmt with
  | nil =>
    intro mode args pos
    have hnote : ∀ o : Out, o.note [] = o := fun o => by simp only [Out.note, List.append_nil]
    cases mode with
    | text => exact ⟨some ([], []), fun lim o _ => congrArg some (hnote o).symm⟩
    | _ => exact ⟨some ([0x25], []), fun lim o _ => congrArg some (hnote _).symm⟩
  | cons c fmt ih =>
    intro mode args pos
    obtain ⟨r, hr⟩ : Uniform pos fun lim o => turn lim c args o mode := turn_uniform c args mode
    dsimp only at hr
    have hfrom : ∀ lim o, vsnprintfFrom lim mode (c :: fmt) args o =
        (turn lim c args o mode).bind fun r => vsnprintfFrom lim r.1.1 fmt r.1.2 r.2 := by
      intro lim o
      rw [vsnprintfFrom]
    cases r with
    | none =>
      refine ⟨none, fun lim o ho => ?_⟩
      rw [hfrom, hr lim o ho]
      rfl
    | some x =>
      obtain ⟨⟨mode', args'⟩, text, stored⟩ := x
      obtain ⟨r', hr'⟩ := ih mode' args' (pos + text.length)
      refine ⟨r'.map fun y => (text ++ y.1, stored ++ y.2), fun lim o ho => ?_⟩
      have hpos : ((o.puts lim text).note stored).pos = pos + text.length := by
        rw [← ho, Out.puts_eq]
        rfl
      have hnote : ∀ y : List UInt8 × List (ℕ × ℕ),
          (((o.puts lim text).note stored).puts lim y.1).note y.2 =
            (o.puts lim (text ++ y.1)).note (stored ++ y.2) := by
        intro y
        rw [Out.note_puts, Out.puts_puts, Out.note_note]
      rw [hfrom, hr lim o ho, Option.map_some, Option.bind_some, hr' lim _ hpos, Option.map_map]
      exact congrArg (Option.map · r') (funext hnote)

/-- A buffer of any size gets the text, cut off so that a zero byte fits behind it, and nothing more of it is
touched. The text is the same for every buffer, and its whole length is returned. -/
theorem vsnprintf_truncates (fmt : List UInt8) (args : List Arg) :
    (∀ addr size buf, vsnprintf addr size buf fmt args = none) ∨
      ∃ (text : List UInt8) (stored : List (ℕ × ℕ)), ∀ addr size buf, InMemory addr size text.length →
        ∃ out, vsnprintf addr size buf fmt args = some (text.length, out, stored) ∧
          ∀ i, out i =
            if size = 0 ∨ min text.length (size - 1) < i then buf i
            else if i = min text.length (size - 1) then 0
            else text.getD i 0 := by
  obtain ⟨r, hr⟩ := vsnprintfFrom_uniform fmt .text args 0
  cases r with
  | none =>
    refine .inl fun addr size buf => ?_
    rw [vsnprintf, hr _ _ rfl]
    rfl
  | some x =>
    refine .inr ⟨x.1, x.2, fun addr size buf hin => ?_⟩
    refine ⟨finish size ((⟨0, buf, []⟩ : Out).puts size x.1), ?_, fun i => ?_⟩
    · rw [vsnprintf, hr _ _ rfl]
      simp only [Option.map_some, Option.bind_some, Out.note, Out.puts_eq, Nat.zero_add, List.nil_append,
        finish, if_pos hin]
    · simp only [finish, Out.puts_eq, Nat.zero_add]
      split_ifs <;> simp only [Function.update_apply] <;> split_ifs <;> first | rfl | omega

end ChiffOS.Fmt.Vsnprintf
