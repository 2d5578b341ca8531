import Mathlib
import ChiffOS.Lib.Bytes
import ChiffOS.Lib.Runs

/-! The key buffer of `kbd.c`. A key press is an interrupt and may come between any two accesses of the task
that is in `getchar`, also between the load and the store of `counter--`. Both pointers are set back only
where they are behind the byte after the array. -/

namespace ChiffOS.Dev.Keyboard

open Function

/-! ### The source -/

def keyboardLayoutUs : List UInt8 :=
  [0, 0x1B, 0x31, 0x32, 0x33, 0x34, 0x35, 0x36, 0x37, 0x38, 0x39, 0x30, 0x2D, 0x3D, 0x08, 0x09, 0x71, 0x77,
    0x65, 0x72,
   0x74, 0x79, 0x75, 0x69, 0x6F, 0x70, 0x5B, 0x5D, 0x0A, 0x5E, 0x61, 0x73, 0x64, 0x66, 0x67, 0x68, 0x6A, 0x6B,
     0x6C, 0x3B,
   0x27, 0x60, 0, 0x5C, 0x7A, 0x78, 0x63, 0x76, 0x62, 0x6E, 0x6D, 0x2C, 0x2E, 0x2F, 0, 0x2A, 0, 0x20, 0, 0, 0,
     0, 0, 0, 0,
   0, 0, 0, 0, 0, 0, 0, 0, 0, 0x2D, 0, 0, 0, 0x2B]

/-- Where the task is in `getchar`: at the loop, before `*(read_ptr++)`, at the load and at the store of
`counter--`, and at the end. -/
inductive Place where
  | loop
  | fetch
  | load (getkey : UInt8)
  | store (getkey : UInt8) (counter : ℕ)
  | wrap (getkey : UInt8)
deriving DecidableEq

/-- A `ringbuffer_t`, with the pointers as offsets into `data`, and the task with what `getchar` has
returned to it. -/
structure Keybuffer where
  data : Buf
  readPtr : ℕ
  writePtr : ℕ
  counter : ℕ
  place : Place
  returned : List UInt8

def kbdInitialize (data : Buf) : Keybuffer := ⟨data, 0, 0, 0, .loop, []⟩

/-- The test at which a pointer goes back to the first byte. -/
def wrapped (ptr : ℕ) : ℕ := if ptr > 256 then 0 else ptr

/-- The key that `kbd_handler` puts into the buffer, if any. -/
def keyResult (scanCode : UInt8) : Option UInt8 :=
  if scanCode &&& 0x80 ≠ 0 then none
  else
    let key := keyboardLayoutUs.getD scanCode.toNat 0
    if key = 0 then none else some key

def store (s : Keybuffer) (key : UInt8) : Option Keybuffer :=
  let ptr := wrapped s.writePtr
  if ptr < 256 then
    some { s with data := update s.data ptr key, writePtr := ptr + 1, counter := (s.counter + 1) % 2 ^ 32 }
  else none

def kbdHandler (s : Keybuffer) (scanCode : UInt8) : Option Keybuffer :=
  match keyResult scanCode with
  | none => some s
  | some key => store s key

def getchar (s : Keybuffer) : Option Keybuffer :=
  match s.place with
  | .loop => some (if s.counter = 0 then s else { s with place := .fetch })
  | .fetch =>
      if s.readPtr < 256 then some { s with readPtr := s.readPtr + 1, place := .load (s.data s.readPtr) }
      else none
  | .load getkey => some { s with place := .store getkey s.counter }
  | .store getkey counter =>
      some { s with counter := (counter + (2 ^ 32 - 1)) % 2 ^ 32, place := .wrap getkey }
  | .wrap getkey =>
      some { s with readPtr := wrapped s.readPtr, place := .loop, returned := s.returned ++ [getkey] }

inductive Event where
  | key (scanCode : UInt8)
  | getchar
deriving DecidableEq

def step (s : Keybuffer) : Event → Option Keybuffer
  | .key scanCode => kbdHandler s scanCode
  | .getchar => getchar s

/-! ### The keys in their order -/

def Event.pressed : Event → List UInt8
  | .key scanCode => (keyResult scanCode).toList
  | .getchar => []

def pressed (es : List Event) : List UInt8 := es.flatMap Event.pressed

/-- Every access is inside of the array, and `getchar` has returned the keys in the order in which they were
pressed. -/
def InOrder (data : Buf) (es : List Event) : Prop :=
  ∃ s, Machine.runs step (kbdInitialize data) es = some s ∧ s.returned <+: pressed es

def PlaceOk (s : Keybuffer) (keys : List UInt8) : Place → Prop
  | .loop => s.returned = keys.take s.readPtr ∧ s.counter + s.readPtr ≤ keys.length
  | .fetch => s.returned = keys.take s.readPtr ∧ 0 < s.counter ∧ s.counter + s.readPtr ≤ keys.length
  | .load getkey => s.returned ++ [getkey] = keys.take s.readPtr ∧ 0 < s.counter ∧
    s.counter + s.readPtr ≤ keys.length + 1
  | .store getkey counter => s.returned ++ [getkey] = keys.take s.readPtr ∧ 0 < counter ∧
    counter + s.readPtr ≤ keys.length + 1
  | .wrap getkey => s.returned ++ [getkey] = keys.take s.readPtr ∧ s.counter + s.readPtr ≤ keys.length

/-- A buffer in which not more keys were put than it has bytes. -/
structure Inv (s : Keybuffer) (keys : List UInt8) : Prop where
  writePtr : s.writePtr = keys.length
  room : keys.length ≤ 256
  data : ∀ i (h : i < keys.length), s.data i = keys[i]
  read : s.readPtr ≤ keys.length
  place : PlaceOk s keys s.place

theorem Inv.initial (data : Buf) : Inv (kbdInitialize data) [] :=
  ⟨rfl, by decide, fun i h => absurd h (Nat.not_lt_zero i), le_rfl, rfl, le_rfl⟩

theorem PlaceOk.returned {s : Keybuffer} {keys : List UInt8} (h : PlaceOk s keys s.place) :
    s.returned <+: keys := by
  have hprefix : ∀ key, s.returned ++ [key] = keys.take s.readPtr → s.returned <+: keys := by
    intro key heq
    exact (List.prefix_append s.returned [key]).trans (heq ▸ List.take_prefix _ keys)
  cases hp : s.place with
  | loop =>
    rw [hp] at h
    exact h.1 ▸ List.take_prefix _ keys
  | fetch =>
    rw [hp] at h
    exact h.1 ▸ List.take_prefix _ keys
  | load getkey =>
    rw [hp] at h
    exact hprefix getkey h.1
  | store getkey counter =>
    rw [hp] at h
    exact hprefix getkey h.1
  | wrap getkey =>
    rw [hp] at h
    exact hprefix getkey h.1

theorem PlaceOk.key {s : Keybuffer} {keys : List UInt8} {p : Place} (h : PlaceOk s keys p)
    (hread : s.readPtr ≤ keys.length)
    (hroom : keys.length < 256) (key : UInt8) (data : Buf) (ptr : ℕ) :
    PlaceOk { s with data := data, writePtr := ptr, counter := (s.counter + 1) % 2 ^ 32 } (keys ++ [key])
      p := by
  have htake : (keys ++ [key]).take s.readPtr = keys.take s.readPtr := List.take_append_of_le_length hread
  have hlen : (keys ++ [key]).length = keys.length + 1 := List.length_append
  cases p with
  | loop =>
    obtain ⟨h1, h2⟩ := h
    refine ⟨h1.trans htake.symm, ?_⟩
    simp only [hlen]
    omega
  | fetch =>
    obtain ⟨h1, h2, h3⟩ := h
    refine ⟨h1.trans htake.symm, ?_, ?_⟩
    · simp only
      omega
    · simp only [hlen]
      omega
  | load getkey =>
    obtain ⟨h1, h2, h3⟩ := h
    refine ⟨h1.trans htake.symm, ?_, ?_⟩
    · simp only
      omega
    · simp only [hlen]
      omega
  | store getkey counter =>
    obtain ⟨h1, h2, h3⟩ := h
    refine ⟨h1.trans htake.symm, h2, ?_⟩
    simp only [hlen]
    omega
  | wrap getkey =>
    obtain ⟨h1, h2⟩ := h
    refine ⟨h1.trans htake.symm, ?_⟩
    simp only [hlen]
    omega

section Step

variable {s : Keybuffer} {keys : List UInt8} (h : Inv s keys)

include h

theorem Inv.wrapped_writePtr : wrapped s.writePtr = keys.length := by
  have hw := h.writePtr
  have hroom := h.room
  unfold wrapped
  rw [if_neg (by omega), hw]

theorem Inv.store_some (hroom : keys.length < 256) (key : UInt8) : ∃ s', store s key = some s' ∧ Inv s'
    (keys ++ [key]) := by
  simp only [store, h.wrapped_writePtr]
  rw [if_pos hroom]
  refine ⟨_, rfl, ⟨?_, ?_, fun i hi => ?_, ?_, h.place.key h.read hroom key _ _⟩⟩
  · rw [List.length_append, List.length_singleton]
  · rw [List.length_append, List.length_singleton]
    exact hroom
  · by_cases hkey : i = keys.length
    · subst hkey
      simp
    · rw [List.length_append, List.length_singleton] at hi
      have hold : i < keys.length := by omega
      simp only [update_of_ne hkey]
      rw [h.data i hold, List.getElem_append_left hold]
  · rw [List.length_append]
    exact Nat.le_add_right_of_le h.read

/-- After 256 keys the next one goes into the byte behind the array. -/
theorem Inv.store_none (hfull : keys.length = 256) (key : UInt8) : store s key = none := by
  simp only [store, h.wrapped_writePtr]
  exact if_neg (by omega)

/-- Whatever the place, the next access is inside, and keeps the order. -/
theorem Inv.getchar_some : ∃ s', getchar s = some s' ∧ Inv s' keys := by
  have hroom := h.room
  have hplace := h.place
  unfold getchar
  cases hp : s.place with
  | loop =>
    rw [hp] at hplace
    obtain ⟨hret, hcount⟩ := hplace
    by_cases hzero : s.counter = 0
    · simp only [if_pos hzero]
      exact ⟨s, rfl, h⟩
    · simp only [if_neg hzero]
      exact ⟨_, rfl, h.writePtr, hroom, h.data, h.read, hret, Nat.pos_of_ne_zero hzero, hcount⟩
  | fetch =>
    rw [hp] at hplace
    obtain ⟨hret, hpos, hcount⟩ := hplace
    have hlt : s.readPtr < keys.length := by omega
    simp only [if_pos (Nat.lt_of_lt_of_le hlt hroom)]
    refine ⟨_, rfl, h.writePtr, hroom, h.data, hlt, ?_, hpos, ?_⟩
    · rw [hret, h.data _ hlt, List.take_concat_get' keys _ hlt]
    · simp only
      omega
  | load getkey =>
    rw [hp] at hplace
    exact ⟨_, rfl, h.writePtr, hroom, h.data, h.read, hplace⟩
  | store getkey counter =>
    rw [hp] at hplace
    obtain ⟨hret, hpos, hcount⟩ := hplace
    refine ⟨_, rfl, h.writePtr, hroom, h.data, h.read, hret, ?_⟩
    simp only
    omega
  | wrap getkey =>
    rw [hp] at hplace
    obtain ⟨hret, hcount⟩ := hplace
    have hread := h.read
    have hwrap : wrapped s.readPtr = s.readPtr := if_neg (by omega)
    refine ⟨_, rfl, h.writePtr, hroom, h.data, ?_, ?_, ?_⟩
    · rw [hwrap]
      exact hread
    · rw [hwrap]
      exact hret
    · rw [hwrap]
      exact hcount

theorem Inv.step (e : Event) :
    ((keys ++ e.pressed).length ≤ 256 → ∃ s', Keyboard.step s e = some s' ∧ Inv s' (keys ++ e.pressed)) ∧
    (256 < (keys ++ e.pressed).length → Keyboard.step s e = none) := by
  cases e with
  | key scanCode =>
    simp only [Keyboard.step, kbdHandler, Event.pressed]
    cases keyResult scanCode with
    | none =>
      rw [Option.toList_none, List.append_nil]
      exact ⟨fun _ => ⟨s, rfl, h⟩, fun hlt => absurd hlt (Nat.not_lt.mpr h.room)⟩
    | some key =>
      rw [Option.toList_some, List.length_append, List.length_singleton]
      exact ⟨fun hle => h.store_some hle key, fun hlt =>
        h.store_none (Nat.le_antisymm h.room (Nat.lt_succ_iff.mp hlt)) key⟩
  | getchar =>
    rw [Event.pressed, List.append_nil]
    exact ⟨fun _ => h.getchar_some, fun hlt => absurd hlt (Nat.not_lt.mpr h.room)⟩

end Step

theorem runs_iff (es : List Event) (s : Keybuffer) (keys : List UInt8) (h : Inv s keys) :
    ((keys ++ pressed es).length ≤ 256 → ∃ s', Machine.runs step s es = some s' ∧
      Inv s' (keys ++ pressed es)) ∧
    (256 < (keys ++ pressed es).length → Machine.runs step s es = none) := by
  induction es generalizing s keys with
  | nil =>
    rw [pressed, List.flatMap_nil, List.append_nil]
    exact ⟨fun _ => ⟨s, rfl, h⟩, fun hlt => absurd hlt (Nat.not_lt.mpr h.room)⟩
  | cons e es ih =>
    have hcons : keys ++ pressed (e :: es) = (keys ++ e.pressed) ++ pressed es := by
      rw [pressed, List.flatMap_cons, List.append_assoc]
      rfl
    rw [hcons, Machine.runs]
    by_cases hroom : (keys ++ e.pressed).length ≤ 256
    · obtain ⟨s₁, hstep, hinv⟩ := (h.step e).1 hroom
      rw [hstep, Option.bind_some]
      exact ih s₁ _ hinv
    · have hnone := (h.step e).2 (Nat.lt_of_not_le hroom)
      rw [hnone, Option.bind_none]
      refine ⟨fun hle => absurd ?_ hroom, fun _ => rfl⟩
      rw [List.length_append] at hle
      omega

def typing (n : ℕ) : List Event := (List.replicate n (.key 2 :: List.replicate 5 .getchar)).flatten

end ChiffOS.Dev.Keyboard
