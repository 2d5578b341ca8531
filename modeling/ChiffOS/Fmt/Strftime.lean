import ChiffOS.Fmt.Kprintf
import ChiffOS.Time.Calendar

/-! `strftime`, over the formatter of the kernel. Only the bytes that are copied from the format are counted
against the size of the buffer, and the format is left where it ends in a conversion. -/

namespace ChiffOS.Fmt

open Vfs Time

/-! ### The source -/

def ascii (s : String) : CStr := s.toList.map fun c => UInt8.ofNat c.toNat

def weekdays : List CStr :=
  ["Sunday", "Monday", "Tuesday", "Wednesday", "Thursday", "Friday", "Saturday"].map ascii

def weekdaysShort : List CStr := ["Sun", "Mon", "Tue", "Wed", "Thu", "Fri", "Sat"].map ascii

def months : List CStr :=
  ["January", "February", "March", "April", "May", "June", "July", "August",
    "September", "October", "November", "December"].map ascii

def monthsShort : List CStr :=
  ["Jan", "Feb", "Mar", "Apr", "May", "Jun", "Jul", "Aug", "Sep", "Oct", "Nov", "Dec"].map ascii

def intArg (z : ℤ) : Arg := .int (z % 2 ^ 32).toNat

def hour12 (hour : ℕ) : ℕ := if hour = 0 then 12 else if hour = 12 then 12 else hour % 12

def sprintf (fmt : String) (args : List Arg) : Option (Option CStr) := (vasprintf (ascii fmt) args).map some

/-- The `switch` of `strftime`: `some none` if there is no case, and no result outside of an array. -/
def strftimeConv (tm : Tm) (c : UInt8) : Option (Option CStr) :=
  match Char.ofNat c.toNat with
  | 'a' => weekdaysShort[tm.tmWday]?.bind fun day => sprintf "%s" [.str day]
  | 'A' => weekdays[tm.tmWday]?.bind fun day => sprintf "%s" [.str day]
  | 'h' | 'b' => monthsShort[tm.tmMon]?.bind fun month => sprintf "%s" [.str month]
  | 'B' => months[tm.tmMon]?.bind fun month => sprintf "%s" [.str month]
  | 'c' => weekdaysShort[tm.tmWday]?.bind fun day => monthsShort[tm.tmMon]?.bind fun month =>
    sprintf "%s %s %02d %02d:%02d:%02d %04d"
      [.str day, .str month, .int tm.tmMday, .int tm.tmHour, .int tm.tmMin, .int tm.tmSec,
        intArg (tm.tmYear + 1900)]
  | 'C' => sprintf "%02d" [intArg ((tm.tmYear + 1900).tdiv 100)]
  | 'd' => sprintf "%02d" [.int tm.tmMday]
  | 'D' | 'x' => sprintf "%02d/%02d/%02d" [.int (tm.tmMon + 1), .int tm.tmMday, intArg (tm.tmYear.tmod 100)]
  | 'e' => sprintf "%2d" [.int tm.tmMday]
  | 'F' => sprintf "%04d-%02d-%02d" [intArg (tm.tmYear + 1900), .int (tm.tmMon + 1), .int tm.tmMday]
  | 'H' => sprintf "%02d" [.int tm.tmHour]
  | 'I' => sprintf "%02d" [.int (hour12 tm.tmHour)]
  | 'j' => sprintf "%03d" [.int tm.tmYday]
  | 'k' => sprintf "%2d" [.int tm.tmHour]
  | 'l' => sprintf "%2d" [.int (hour12 tm.tmHour)]
  | 'm' => sprintf "%02d" [.int (tm.tmMon + 1)]
  | 'M' => sprintf "%02d" [.int tm.tmMin]
  | 'n' => sprintf "\n" []
  | 'p' => sprintf "%s" [.str (ascii (if tm.tmHour < 12 then "AM" else "PM"))]
  | 'P' => sprintf "%s" [.str (ascii (if tm.tmHour < 12 then "am" else "pm"))]
  | 'r' => sprintf "%02d:%02d:%02d %s"
      [.int (hour12 tm.tmHour), .int tm.tmMin, .int tm.tmSec,
        .str (ascii (if tm.tmHour < 12 then "AM" else "PM"))]
  | 'R' => sprintf "%02d:%02d" [.int tm.tmHour, .int tm.tmMin]
  | 'S' => sprintf "%02d" [.int tm.tmSec]
  | 't' => sprintf "\t" []
  | 'T' | 'X' => sprintf "%02d:%02d:%02d" [.int tm.tmHour, .int tm.tmMin, .int tm.tmSec]
  | 'u' => sprintf "%d" [.int (if tm.tmWday = 0 then 7 else tm.tmWday)]
  | 'w' => sprintf "%d" [.int tm.tmWday]
  | 'y' => sprintf "%02d" [intArg (tm.tmYear.tmod 100)]
  | 'Y' => sprintf "%04d" [intArg (tm.tmYear + 1900)]
  | 'z' => sprintf "+0000" []
  | 'Z' => sprintf "UTC" []
  | '%' => sprintf "%c" [.int 0x25]
  | 'V' | 'W' | 's' | 'U' | 'G' | 'g' => sprintf "<%c unsupported>" [.int c.toNat]
  | _ => some none

/-- Where in the format the loop is: at text, behind `%`, or behind `%E` or `%0`. -/
inductive Mode where
  | text
  | percent
  | alt
deriving DecidableEq

/-- The pointer into the buffer, as an offset, and the bytes that were written with their offsets. -/
structure Out where
  b : ℕ
  writes : List (UInt8 × ℕ)

namespace Out

def put (o : Out) (c : UInt8) : Out := ⟨o.b + 1, o.writes ++ [(c, o.b)]⟩

def print (o : Out) (text : CStr) : Out := ⟨o.b + text.length, o.writes ++ (text ++ [0]).zipIdx o.b⟩

def printed (o : Out) : Option CStr → Out
  | none => o
  | some text => o.print text

end Out

/-- `strftime`, with what it returns; no result where the format is left. -/
def strftimeFrom (max : ℕ) (tm : Tm) : Mode → (f : CStr) → (count : ℕ) → Out → Option (ℕ × Out)
  | .text, [], _, o => some (o.b, ⟨o.b, o.writes ++ [(0, o.b)]⟩)
  | .percent, [], _, _ => none
  | .alt, [], _, _ => none
  | .text, c :: f, count, o =>
    if c ≠ 0x25 then
      if count + 1 = max then some (o.b + 1, o.put c) else strftimeFrom max tm .text f (count + 1) (o.put c)
    else strftimeFrom max tm .percent f count o
  | .percent, c :: f, count, o =>
    if c = 0x45 ∨ c = 0x30 then strftimeFrom max tm .alt f count o
    else (strftimeConv tm c).bind fun text => strftimeFrom max tm .text f count (o.printed text)
  | .alt, c :: f, count, o => (strftimeConv tm c).bind fun text =>
    strftimeFrom max tm .text f count (o.printed text)

def strftime (max : ℕ) (fmt : CStr) (tm : Tm) : Option (ℕ × Out) := strftimeFrom max tm .text fmt 0 ⟨0, []⟩

/-! ### The buffer -/

/-- The format is read to its end only, the buffer is not left, and a zero ends the text. -/
def Respects (max : ℕ) (fmt : CStr) (tm : Tm) : Prop :=
  ∃ ret o, strftime max fmt tm = some (ret, o) ∧ (∀ w ∈ o.writes, w.2 < max) ∧ ret < max ∧ o.writes.getLast? =
    some (0, ret)

def endMode : Mode → CStr → Mode
  | m, [] => m
  | .text, c :: f => if c ≠ 0x25 then endMode .text f else endMode .percent f
  | .percent, c :: f => if c = 0x45 ∨ c = 0x30 then endMode .alt f else endMode .text f
  | .alt, _ :: f => endMode .text f

def convText (tm : Tm) (c : UInt8) : CStr := ((strftimeConv tm c).getD none).getD []

def strftimeText (tm : Tm) : Mode → CStr → CStr
  | _, [] => []
  | .text, c :: f => if c ≠ 0x25 then c :: strftimeText tm .text f else strftimeText tm .percent f
  | .percent, c :: f => if c = 0x45 ∨ c = 0x30 then strftimeText tm .alt f else convText tm c ++ strftimeText
    tm .text f
  | .alt, c :: f => convText tm c ++ strftimeText tm .text f

/-- Every conversion has a text, or none if there is no such case. -/
theorem strftimeConv_isSome {tm : Tm} (hw : tm.tmWday < 7) (hm : tm.tmMon < 12) (c : UInt8) :
    (strftimeConv tm c).isSome := by
  have hday : ∃ day, weekdaysShort[tm.tmWday]? = some day := ⟨_, List.getElem?_eq_getElem hw⟩
  have hday' : ∃ day, weekdays[tm.tmWday]? = some day := ⟨_, List.getElem?_eq_getElem hw⟩
  have hmonth : ∃ month, monthsShort[tm.tmMon]? = some month := ⟨_, List.getElem?_eq_getElem hm⟩
  have hmonth' : ∃ month, months[tm.tmMon]? = some month := ⟨_, List.getElem?_eq_getElem hm⟩
  obtain ⟨day, hday⟩ := hday
  obtain ⟨day', hday'⟩ := hday'
  obtain ⟨month, hmonth⟩ := hmonth
  obtain ⟨month', hmonth'⟩ := hmonth'
  unfold strftimeConv
  rw [hday, hday', hmonth, hmonth']
  split <;> rfl

theorem mem_printed {o : Out} {text : Option CStr} {w : UInt8 × ℕ} (hw : w ∈ (o.printed text).writes) :
    w ∈ o.writes ∨ w.2 ≤ (o.printed text).b := by
  cases text with
  | none => exact .inl hw
  | some text =>
    rcases List.mem_append.mp hw with hw | hw
    · exact .inl hw
    · have hlt := List.snd_lt_add_of_mem_zipIdx hw
      rw [List.length_append, List.length_singleton] at hlt
      refine .inr ?_
      simp only [Out.printed, Out.print]
      omega

theorem printed_b (o : Out) (text : Option CStr) : (o.printed text).b = o.b + (text.getD []).length := by
  cases text with
  | none => rfl
  | some text => rfl

/-- How a call ends that has `total` bytes of text before its zero. -/
inductive Ends (max total : ℕ) (m : Mode) (o : Out) : Option (ℕ × Out) → Prop
  | whole {o' : Out} (hm : m = .text) (hlast : o'.writes.getLast? = some (0, total))
      (hmem : ∀ w ∈ o'.writes, w ∈ o.writes ∨ w.2 ≤ total) : Ends max total m o (some (total, o'))
  | left (hm : m ≠ .text) : Ends max total m o none
  | full {ret : ℕ} {o' : Out} (hret : max ≤ ret) (htotal : max ≤ total) : Ends max total m o (some (ret, o'))

/-- One step of the loop, whose writes stay below the end of the text. -/
theorem Ends.back {max total : ℕ} {m : Mode} {o o₁ : Out} {r : Option (ℕ × Out)} (h : Ends max total m o₁ r)
    (hmem : ∀ w ∈ o₁.writes, w ∈ o.writes ∨ w.2 ≤ total) : Ends max total m o r := by
  cases h with
  | whole hm hlast hmem' =>
    refine .whole hm hlast fun w hw => ?_
    rcases hmem' w hw with hw | hw
    · exact hmem w hw
    · exact .inr hw
  | left hm => exact .left hm
  | full hret htotal => exact .full hret htotal

section Run

variable {max : ℕ} {tm : Tm} (hw : tm.tmWday < 7) (hm : tm.tmMon < 12)

include hw hm

theorem ends_conv {c : UInt8} {f : CStr} {count : ℕ} {o : Out} (hcount : count ≤ o.b)
    (ih : ∀ o : Out, count ≤ o.b →
      Ends max (o.b + (strftimeText tm .text f).length) (endMode .text f) o
        (strftimeFrom max tm .text f count o)) :
    Ends max (o.b + (convText tm c ++ strftimeText tm .text f).length) (endMode .text f) o
      ((strftimeConv tm c).bind fun text => strftimeFrom max tm .text f count (o.printed text)) := by
  obtain ⟨text, htext⟩ := Option.isSome_iff_exists.mp (strftimeConv_isSome hw hm c)
  have hconv : convText tm c = text.getD [] := by rw [convText, htext]; rfl
  have hb := printed_b o text
  rw [htext, Option.bind_some, hconv, List.length_append, ← Nat.add_assoc, ← hb]
  refine (ih (o.printed text) (by omega)).back fun w hw => ?_
  rcases mem_printed hw with hw | hw
  · exact .inl hw
  · exact .inr (by omega)

/-- The count of the copied bytes is below the size of the buffer and not above the offset. -/
theorem strftimeFrom_ends (m : Mode) (f : CStr) (count : ℕ) (o : Out) (hlt : count < max)
    (hcount : count ≤ o.b) :
    Ends max (o.b + (strftimeText tm m f).length) (endMode m f) o (strftimeFrom max tm m f count o) := by
  induction f generalizing m count o with
  | nil =>
    cases m with
    | text =>
      refine .whole rfl (List.getLast?_concat) fun w hw => ?_
      rcases List.mem_append.mp hw with hw | hw
      · exact .inl hw
      · rw [List.mem_singleton.mp hw]
        exact .inr (Nat.le_add_right _ _)
    | percent => exact .left (by decide)
    | alt => exact .left (by decide)
  | cons c f ih =>
    cases m with
    | text =>
      simp only [strftimeFrom, endMode, strftimeText]
      by_cases hc : c ≠ 0x25
      · rw [if_pos hc, if_pos hc, if_pos hc]
        by_cases hfull : count + 1 = max
        · rw [if_pos hfull]
          exact .full (by omega) (by rw [List.length_cons]; omega)
        · rw [if_neg hfull]
          have hrest := ih .text (count + 1) (o.put c) (by omega) (Nat.succ_le_succ hcount)
          have htotal : (o.put c).b + (strftimeText tm .text f).length
              = o.b + (c :: strftimeText tm .text f).length := by
            rw [List.length_cons, Nat.add_comm _ 1, ← Nat.add_assoc]
            rfl
          rw [htotal] at hrest
          refine hrest.back fun w hw => ?_
          rcases List.mem_append.mp hw with hw | hw
          · exact .inl hw
          · rw [List.mem_singleton.mp hw]
            exact .inr (Nat.le_add_right _ _)
      · rw [if_neg hc, if_neg hc, if_neg hc]
        exact ih .percent count o hlt hcount
    | percent =>
      simp only [strftimeFrom, endMode, strftimeText]
      by_cases hc : c = 0x45 ∨ c = 0x30
      · rw [if_pos hc, if_pos hc, if_pos hc]
        exact ih .alt count o hlt hcount
      · rw [if_neg hc, if_neg hc, if_neg hc]
        exact ends_conv hw hm hcount fun o ho => ih .text count o hlt ho
    | alt => exact ends_conv hw hm hcount fun o ho => ih .text count o hlt ho

end Run

/-- The buffer is respected exactly if the format does not end in a conversion and the whole text has room,
with its zero. -/
theorem strftime_respects_iff {max : ℕ} (fmt : CStr) {tm : Tm} (hmax : 1 ≤ max) (hw : tm.tmWday < 7)
    (hm : tm.tmMon < 12) :
    Respects max fmt tm ↔ endMode .text fmt = .text ∧ (strftimeText tm .text fmt).length < max := by
  have hends := strftimeFrom_ends hw hm .text fmt 0 ⟨0, []⟩ hmax (Nat.le_refl 0)
  rw [Nat.zero_add] at hends
  unfold Respects strftime
  generalize strftimeFrom max tm .text fmt 0 ⟨0, []⟩ = r at hends
  constructor
  · rintro ⟨ret, o, rfl, hmem, hret, hlast⟩
    cases hends with
    | whole hm _ _ => exact ⟨hm, hret⟩
    | full hfull _ => omega
  · rintro ⟨hmode, htotal⟩
    cases hends with
    | whole hm hlast hmem =>
      refine ⟨_, _, rfl, fun w hw => ?_, htotal, hlast⟩
      rcases hmem w hw with hw | hw
      · cases hw
      · omega
    | left hm => exact absurd hmode hm
    | full _ hfull => omega

/-- A time of day in a buffer of nine bytes. -/
theorem strftime_respects_time : Respects 9 (ascii "%H:%M:%S") ⟨5, 4, 3, 2, 1, 70, 1, 32, 0⟩ :=
  (strftime_respects_iff (ascii "%H:%M:%S") (by decide) (by decide) (by decide)).mpr (by decide +kernel)

/-- The name of a day leaves a buffer of one byte, and a format that is a percent sign is left. -/
theorem strftime_not_respected :
    ¬ Respects 1 (ascii "%A") ⟨0, 0, 0, 1, 0, 70, 4, 0, 0⟩ ∧
      strftime 1 (ascii "%") ⟨0, 0, 0, 1, 0, 70, 4, 0, 0⟩ = none := by
  refine ⟨?_, rfl⟩
  rintro ⟨ret, o, h, -, hret, -⟩
  have hret' : (strftime 1 (ascii "%A") ⟨0, 0, 0, 1, 0, 70, 4, 0, 0⟩).map Prod.fst = some 8 := by decide +kernel
  rw [h] at hret'
  have heq : ret = 8 := Option.some.inj hret'
  omega

end ChiffOS.Fmt
