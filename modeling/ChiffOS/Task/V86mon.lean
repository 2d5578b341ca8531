import Mathlib.Data.Nat.Bitwise
import ChiffOS.Lib.Bytes

/-! The virtual-8086 monitor: `vm86sensitiveOpcodehandler`. A task in virtual-8086 mode runs until an
instruction that the processor does not let it execute; the monitor does that instruction on the saved
context. -/

namespace ChiffOS.Task.V86

def eflagIf : ℕ := 1 <<< 9

def eflagVm : ℕ := 1 <<< 17

def validFlags : ℕ := 0x3FFFFF

def fpToLinear (seg off : ℕ) : ℕ := seg % 2 ^ 16 * 16 + off % 2 ^ 16

def sub16 (sp n : ℕ) : ℕ := (((sp : ℤ) - n) % 2 ^ 16).toNat

/-- A pointer of 32 bits, moved down by `n` bytes. -/
def sub32 (p n : ℕ) : ℕ := (((p : ℤ) - n) % 2 ^ 32).toNat

/-- The fields of `struct regs` that the monitor uses, `Current.v86_if`, the memory, and what was written to
ports. -/
structure Context where
  cs : ℕ
  eip : ℕ
  ss : ℕ
  useresp : ℕ
  eflags : ℕ
  eax : ℕ
  edx : ℕ
  vif : Bool
  mem : Buf
  outs : List (ℕ × ℕ) := []

inductive Outcome where
  | returned (handled : Bool) (s : Context)
  | exited
  | prefixed (operand32 : Bool) (s : Context)

namespace Context

def ip (s : Context) : ℕ := fpToLinear s.cs s.eip

def stack (s : Context) : ℕ := fpToLinear s.ss s.useresp

def pushedFlags (s : Context) (flags : ℕ) : ℕ :=
  if s.vif then flags ||| eflagIf else flags &&& (2 ^ 32 - 1 - eflagIf)

def next (s : Context) : Context := { s with eip := (s.eip + 1) % 2 ^ 32 }

def pushf (s : Context) (operand32 : Bool) : Context :=
  if operand32 then
    { s with
      useresp := sub16 (s.useresp % 2 ^ 16) 4
      mem := s.mem.setU32 (sub32 s.stack 4) (s.pushedFlags (s.eflags &&& validFlags)) }
  else
    { s with
      useresp := sub16 (s.useresp % 2 ^ 16) 2
      mem := s.mem.setU16 (sub32 s.stack 2) (s.pushedFlags (s.eflags % 2 ^ 16)) }

def popf (s : Context) (operand32 : Bool) : Context :=
  if operand32 then
    { s with
      eflags := eflagIf ||| eflagVm ||| s.mem.u32 s.stack &&& validFlags
      vif := s.mem.u32 s.stack &&& eflagIf ≠ 0
      useresp := (s.useresp % 2 ^ 16 + 4) % 2 ^ 16 }
  else
    { s with
      eflags := eflagIf ||| eflagVm ||| s.mem.u16 s.stack
      vif := s.mem.u16 s.stack &&& eflagIf ≠ 0
      useresp := (s.useresp % 2 ^ 16 + 2) % 2 ^ 16 }

def frame (s : Context) : ℕ := sub32 s.stack 6

/-- The memory after the three words of `INT` are pushed. -/
def pushedFrame (s : Context) : Buf :=
  ((s.mem.setU16 (s.frame + 4) (s.eip + 2)).setU16 (s.frame + 2) s.cs).setU16 s.frame
    (s.pushedFlags (s.eflags % 2 ^ 16))

/-- `INT n` for an `n` that is not special. The vector is read behind the pushes. -/
def int (s : Context) (ip : ℕ) : Context :=
  let n := (s.pushedFrame (ip + 1)).toNat
  { s with
    useresp := sub16 (s.useresp % 2 ^ 16) 6
    mem := s.pushedFrame
    eip := s.pushedFrame.u16 (4 * n)
    cs := s.pushedFrame.u16 (4 * n + 2) }

def iret (s : Context) : Context :=
  { s with
    eip := s.mem.u16 (s.stack + 4)
    cs := s.mem.u16 (s.stack + 2)
    eflags := eflagIf ||| eflagVm ||| s.mem.u16 s.stack
    useresp := (s.useresp % 2 ^ 16 + 6) % 2 ^ 16
    vif := s.mem.u16 s.stack &&& eflagIf ≠ 0 }

def execute (port : ℕ → ℕ) (s : Context) (ip : ℕ) (operand32 : Bool) : Outcome :=
  let op := s.mem ip
  if op = 0x66 then .prefixed true s.next
  else if op = 0x67 then .prefixed operand32 s.next
  else if op = 0x9C then .returned true (s.pushf operand32).next
  else if op = 0x9D then .returned true (s.popf operand32).next
  else if op = 0xEF then
    .returned true { s.next with outs := s.outs ++ [(s.edx, if operand32 then s.eax else s.eax % 2 ^ 16)] }
  else if op = 0xEE then .returned true { s.next with outs := s.outs ++ [(s.edx, s.eax % 2 ^ 8)] }
  else if op = 0xED then
    .returned true { s.next with
      eax := if operand32 then port s.edx else s.eax / 2 ^ 16 * 2 ^ 16 + port s.edx % 2 ^ 16 }
  else if op = 0xEC then
    .returned true { s.next with eax := s.eax / 2 ^ 8 % 2 ^ 8 * 2 ^ 8 + port s.edx % 2 ^ 8 }
  else if op = 0xCD then
    if s.mem (ip + 1) = 0x30 then .returned true s
    else if s.mem (ip + 1) = 0x20 ∨ s.mem (ip + 1) = 0x21 then .returned false s
    else .returned true (s.int ip)
  else if op = 0xCF then .returned true s.iret
  else if op = 0xFA then .returned true { s.next with vif := false }
  else if op = 0xFB then .returned true { s.next with vif := true }
  else if op = 0xF4 then .exited
  else .returned false s

def handler (port : ℕ → ℕ) : (fuel ip : ℕ) → (operand32 : Bool) → Context → Option Outcome
  | 0, _, _, _ => none
  | fuel + 1, ip, operand32, s =>
    match s.execute port ip operand32 with
    | .prefixed operand32 s => handler port fuel (ip + 1) operand32 s
    | out => some out

/-- The context after the monitor has done the instruction at which the task stopped, if it does it. -/
def emulate (port : ℕ → ℕ) (fuel : ℕ) (s : Context) : Option Context :=
  (handler port fuel s.ip false s).bind fun
    | .returned true s' => some s'
    | _ => none

/-- The opcode at `cs:eip`, behind a prefix for 32-bit operands if there is one. -/
def At (s : Context) (operand32 : Bool) (op : UInt8) : Prop :=
  if operand32 then s.mem s.ip = 0x66 ∧ s.mem (s.ip + 1) = op else s.mem s.ip = op

variable {port : ℕ → ℕ} {fuel : ℕ} {s s' : Context}

/-! Fields of the contexts that the instructions leave. -/

@[simp] theorem next_ss : s.next.ss = s.ss := rfl

@[simp] theorem next_useresp : s.next.useresp = s.useresp := rfl

@[simp] theorem next_mem : s.next.mem = s.mem := rfl

@[simp] theorem next_stack : s.next.stack = s.stack := rfl

@[simp] theorem int_ss {ip : ℕ} : (s.int ip).ss = s.ss := by simp only [int]

theorem int_useresp {ip : ℕ} : (s.int ip).useresp = sub16 (s.useresp % 2 ^ 16) 6 := by simp only [int]

@[simp] theorem int_mem {ip : ℕ} : (s.int ip).mem = s.pushedFrame := by simp only [int]

@[simp] theorem iret_ss : s.iret.ss = s.ss := by simp only [iret]

theorem iret_useresp : s.iret.useresp = (s.useresp % 2 ^ 16 + 6) % 2 ^ 16 := by simp only [iret]

@[simp] theorem iret_mem : s.iret.mem = s.mem := by simp only [iret]

theorem emulate_plain (hf : 2 ≤ fuel) (h : s.execute port s.ip false = .returned true s') :
    emulate port fuel s = some s' := by
  obtain ⟨fuel, rfl⟩ := Nat.exists_eq_add_of_le' hf
  simp only [emulate, handler, h, Option.bind_some]

theorem emulate_behind (hf : 2 ≤ fuel) (h66 : s.mem s.ip = 0x66)
    (h : s.next.execute port (s.ip + 1) true = .returned true s') : emulate port fuel s = some s' := by
  obtain ⟨fuel, rfl⟩ := Nat.exists_eq_add_of_le' hf
  have hp : s.execute port s.ip false = .prefixed true s.next := by simp only [execute, h66, if_true]
  simp only [emulate, handler, hp, h, Option.bind_some]

theorem execute_pushf {ip : ℕ} {w : Bool} (h : s.mem ip = 0x9C) :
    s.execute port ip w = .returned true (s.pushf w).next := by
  simp [execute, h]

theorem execute_popf {ip : ℕ} {w : Bool} (h : s.mem ip = 0x9D) :
    s.execute port ip w = .returned true (s.popf w).next := by
  simp [execute, h]

theorem execute_int {ip : ℕ} {w : Bool} (h : s.mem ip = 0xCD)
    (hn : s.mem (ip + 1) ≠ 0x20 ∧ s.mem (ip + 1) ≠ 0x21 ∧ s.mem (ip + 1) ≠ 0x30) :
    s.execute port ip w = .returned true (s.int ip) := by
  simp [execute, h, hn]

theorem execute_iret {ip : ℕ} {w : Bool} (h : s.mem ip = 0xCF) :
    s.execute port ip w = .returned true s.iret := by
  simp [execute, h]

theorem execute_flag {ip : ℕ} {w : Bool} {op : UInt8} (h : s.mem ip = op) (hop : op = 0xFA ∨ op = 0xFB) :
    s.execute port ip w = .returned true { s.next with vif := decide (op = 0xFB) } := by
  obtain rfl | rfl := hop
  · simp [execute, h]
  · simp [execute, h]

/-! ### Bracketed sequences -/

def width (operand32 : Bool) : ℕ := if operand32 then 4 else 2

/-- What stays at a level of nesting: the stack pointer, and the bytes of the stack from it to the end of its
segment. -/
structure Keeps (s s' : Context) : Prop where
  ss : s'.ss = s.ss
  useresp : s'.useresp = s.useresp
  above : ∀ a, s.stack ≤ a → a < s.ss % 2 ^ 16 * 16 + 2 ^ 16 → s'.mem a = s.mem a

/-- A well-bracketed sequence: `INT` with the `IRET` of its handler, `PUSHF` with its `POPF`, `CLI` and
`STI`, and what the task executes itself in between. -/
inductive Brackets where
  | done
  | own (f : Context → Context) (rest : Brackets)
  | flag (op : UInt8) (rest : Brackets)
  | flags (operand32 : Bool) (inner rest : Brackets)
  | int (inner rest : Brackets)

/-- The context after the sequence, the monitor doing its instructions. -/
def follow (port : ℕ → ℕ) (fuel : ℕ) : Brackets → Context → Option Context
  | .done, s => some s
  | .own f rest, s => follow port fuel rest (f s)
  | .flag _ rest, s => (emulate port fuel s).bind (follow port fuel rest)
  | .flags _ inner rest, s | .int inner rest, s =>
    (emulate port fuel s).bind fun s₁ => (follow port fuel inner s₁).bind fun s₂ =>
      (emulate port fuel s₂).bind (follow port fuel rest)

structure AtInt (s : Context) : Prop where
  room : 6 ≤ s.useresp
  opcode : At s false 0xCD
  number : s.mem (s.ip + 1) ≠ 0x20 ∧ s.mem (s.ip + 1) ≠ 0x21 ∧ s.mem (s.ip + 1) ≠ 0x30

/-- Wherever the task gets, the instruction there is the next one of the sequence, and there is room for
what it pushes. The task's own instructions, jumps and writes to memory, do not write to the stack from the
stack pointer on, so not to saved frames. -/
def Fits (port : ℕ → ℕ) (fuel : ℕ) : Brackets → Context → Prop
  | .done, _ => True
  | .own f rest, s => Keeps s (f s) ∧ Fits port fuel rest (f s)
  | .flag op rest, s => (op = 0xFA ∨ op = 0xFB) ∧ At s false op ∧
    ∀ s₁, emulate port fuel s = some s₁ → Fits port fuel rest s₁
  | .flags w inner rest, s => (width w ≤ s.useresp ∧ At s w 0x9C) ∧
    ∀ s₁, emulate port fuel s = some s₁ → Fits port fuel inner s₁ ∧
      ∀ s₂, follow port fuel inner s₁ = some s₂ → At s₂ w 0x9D ∧
        ∀ s₃, emulate port fuel s₂ = some s₃ → Fits port fuel rest s₃
  | .int inner rest, s => AtInt s ∧
    ∀ s₁, emulate port fuel s = some s₁ → Fits port fuel inner s₁ ∧
      ∀ s₂, follow port fuel inner s₁ = some s₂ → At s₂ false 0xCF ∧
        ∀ s₃, emulate port fuel s₂ = some s₃ → Fits port fuel rest s₃

instance (s : Context) (w : Bool) (op : UInt8) : Decidable (At s w op) :=
  inferInstanceAs (Decidable (if w then s.mem s.ip = 0x66 ∧ s.mem (s.ip + 1) = op else s.mem s.ip = op))

instance (s : Context) : Decidable (AtInt s) :=
  decidable_of_iff (6 ≤ s.useresp ∧ At s false 0xCD ∧
      (s.mem (s.ip + 1) ≠ 0x20 ∧ s.mem (s.ip + 1) ≠ 0x21 ∧ s.mem (s.ip + 1) ≠ 0x30))
    ⟨fun h => ⟨h.1, h.2.1, h.2.2⟩, fun h => ⟨h.room, h.opcode, h.number⟩⟩

instance (s s' : Context) : Decidable (Keeps s s') :=
  decidable_of_iff (s'.ss = s.ss ∧ s'.useresp = s.useresp ∧
      ∀ a < s.ss % 2 ^ 16 * 16 + 2 ^ 16, s.stack ≤ a → s'.mem a = s.mem a)
    ⟨fun h => ⟨h.1, h.2.1, fun a h1 h2 => h.2.2 a h2 h1⟩, fun h =>
      ⟨h.ss, h.useresp, fun a h2 h1 => h.above a h1 h2⟩⟩

instance Fits.decidable (port : ℕ → ℕ) (fuel : ℕ) : ∀ (b : Brackets) (s : Context), Decidable
    (Fits port fuel b s)
  | .done, _ => isTrue trivial
  | .own f rest, s =>
    have := Fits.decidable port fuel rest
    inferInstanceAs (Decidable (Keeps s (f s) ∧ Fits port fuel rest (f s)))
  | .flag op rest, s =>
    have := Fits.decidable port fuel rest
    inferInstanceAs (Decidable ((op = 0xFA ∨ op = 0xFB) ∧ At s false op ∧
      ∀ s₁ ∈ emulate port fuel s, Fits port fuel rest s₁))
  | .flags w inner rest, s =>
    have := Fits.decidable port fuel inner
    have := Fits.decidable port fuel rest
    inferInstanceAs (Decidable ((width w ≤ s.useresp ∧ At s w 0x9C) ∧ ∀ s₁ ∈ emulate port fuel s,
      Fits port fuel inner s₁ ∧ ∀ s₂ ∈ follow port fuel inner s₁, At s₂ w 0x9D ∧
        ∀ s₃ ∈ emulate port fuel s₂, Fits port fuel rest s₃))
  | .int inner rest, s =>
    have := Fits.decidable port fuel inner
    have := Fits.decidable port fuel rest
    inferInstanceAs (Decidable (AtInt s ∧ ∀ s₁ ∈ emulate port fuel s,
      Fits port fuel inner s₁ ∧ ∀ s₂ ∈ follow port fuel inner s₁, At s₂ false 0xCF ∧
        ∀ s₃ ∈ emulate port fuel s₂, Fits port fuel rest s₃))

theorem Keeps.refl (s : Context) : Keeps s s := ⟨rfl, rfl, fun _ _ _ => rfl⟩

theorem Keeps.trans {a b c : Context} (h : Keeps a b) (h' : Keeps b c) : Keeps a c := by
  have hst : b.stack = a.stack := by
    unfold stack
    rw [h.ss, h.useresp]
  refine ⟨h'.ss.trans h.ss, h'.useresp.trans h.useresp, ?_⟩
  intro x h1 h2
  rw [h'.above x (by rw [hst]; exact h1) (by rw [h.ss]; exact h2), h.above x h1 h2]

/-- Two words of a lower stack are popped again: what was above the higher one has stayed. -/
theorem keeps_of_push {s s₁ s₂ s₃ : Context} {n : ℕ} (hsp : s.useresp < 2 ^ 16) (hroom : n ≤ s.useresp)
    (hss : s₁.ss = s.ss) (hu : s₁.useresp = s.useresp - n) (hmem : ∀ a, s.stack ≤ a → s₁.mem a = s.mem a)
    (hinner : Keeps s₁ s₂) (hss3 : s₃.ss = s₂.ss) (hu3 : s₃.useresp = (s₂.useresp + n) % 2 ^ 16)
    (hmem3 : s₃.mem = s₂.mem) : Keeps s s₃ := by
  have hst : s.stack = s.ss % 2 ^ 16 * 16 + s.useresp := by
    unfold stack fpToLinear
    rw [Nat.mod_eq_of_lt hsp]
  have hst1 : s₁.stack = s.ss % 2 ^ 16 * 16 + (s.useresp - n) := by
    unfold stack fpToLinear
    rw [hss, hu, Nat.mod_eq_of_lt (a := s.useresp - n) (by omega)]
  refine ⟨by rw [hss3, hinner.ss, hss], ?_, ?_⟩
  · rw [hu3, hinner.useresp, hu, Nat.sub_add_cancel hroom, Nat.mod_eq_of_lt hsp]
  · intro a h1 h2
    rw [hmem3, hinner.above a (by omega) (by rw [hss]; exact h2), hmem a h1]

section Push

variable (hsp : s.useresp < 2 ^ 16)

include hsp

theorem stack_sub {n : ℕ} (hn : n ≤ s.useresp) :
    sub32 s.stack n = s.stack - n ∧ n ≤ s.stack ∧ sub16 (s.useresp % 2 ^ 16) n = s.useresp - n := by
  have hst : s.stack = s.ss % 2 ^ 16 * 16 + s.useresp := by
    unfold stack fpToLinear
    rw [Nat.mod_eq_of_lt hsp]
  have hss : s.ss % 2 ^ 16 < 2 ^ 16 := Nat.mod_lt _ (by decide)
  unfold sub32 sub16
  rw [hst]
  omega

theorem frame_eq (h : 6 ≤ s.useresp) : s.frame = s.stack - 6 ∧ 6 ≤ s.stack :=
  ⟨(stack_sub hsp h).1, (stack_sub hsp h).2.1⟩

/-- `INT` writes three words below the stack pointer. -/
theorem pushedFrame_above (h : 6 ≤ s.useresp) {a : ℕ} (ha : s.stack ≤ a) : s.pushedFrame a = s.mem a := by
  obtain ⟨hf, h6⟩ := frame_eq hsp h
  unfold pushedFrame Buf.setU16
  rw [Buf.blit_out (by omega), Buf.blit_out (by omega), Buf.blit_out (by omega)]

theorem pushf_keeps {w : Bool} (h : width w ≤ s.useresp) :
    (s.pushf w).ss = s.ss ∧ (s.pushf w).useresp = s.useresp - width w ∧
      ∀ a, s.stack ≤ a → (s.pushf w).mem a = s.mem a := by
  cases w with
  | true =>
    obtain ⟨h1, h2, h3⟩ := stack_sub (n := 4) hsp h
    simp only [pushf, width, if_true, h1, h3, true_and]
    intro a ha
    exact Buf.blit_out (by omega)
  | false =>
    obtain ⟨h1, h2, h3⟩ := stack_sub (n := 2) hsp h
    simp only [pushf, width, Bool.false_eq_true, if_false, h1, h3, true_and]
    intro a ha
    exact Buf.blit_out (by omega)

end Push

theorem popf_keeps (w : Bool) : (s.popf w).ss = s.ss ∧
    (s.popf w).useresp = (s.useresp % 2 ^ 16 + width w) % 2 ^ 16 ∧ (s.popf w).mem = s.mem := by
  cases w <;> simp [popf, width]

section Emulated

variable (port) (hf : 2 ≤ fuel)

include hf

theorem emulate_pushf {w : Bool} (hsp : s.useresp < 2 ^ 16) (hroom : width w ≤ s.useresp) (h : At s w 0x9C) :
    ∃ s', emulate port fuel s = some s' ∧ s'.ss = s.ss ∧ s'.useresp = s.useresp - width w ∧
      ∀ a, s.stack ≤ a → s'.mem a = s.mem a := by
  cases w with
  | true =>
    refine ⟨_, emulate_behind hf h.1 (execute_pushf (s := s.next) h.2), ?_⟩
    have hk := pushf_keeps (s := s.next) (w := true) hsp hroom
    simpa only [next_ss, next_useresp, next_mem, next_stack] using hk
  | false =>
    refine ⟨_, emulate_plain hf (execute_pushf h), ?_⟩
    have hk := pushf_keeps (s := s) (w := false) hsp hroom
    simpa only [next_ss, next_useresp, next_mem, next_stack] using hk

theorem emulate_popf {w : Bool} (h : At s w 0x9D) : ∃ s', emulate port fuel s = some s' ∧ s'.ss = s.ss ∧
    s'.useresp = (s.useresp % 2 ^ 16 + width w) % 2 ^ 16 ∧ s'.mem = s.mem := by
  cases w with
  | true =>
    refine ⟨_, emulate_behind hf h.1 (execute_popf (s := s.next) h.2), ?_⟩
    have hk := popf_keeps (s := s.next) true
    simpa only [next_ss, next_useresp, next_mem] using hk
  | false =>
    refine ⟨_, emulate_plain hf (execute_popf h), ?_⟩
    have hk := popf_keeps (s := s) false
    simpa only [next_ss, next_useresp, next_mem] using hk

theorem emulate_int (h : AtInt s) : emulate port fuel s = some (s.int s.ip) :=
  emulate_plain hf (execute_int h.opcode h.number)

theorem emulate_iret (h : At s false 0xCF) : emulate port fuel s = some s.iret :=
  emulate_plain hf (execute_iret h)

theorem emulate_flag {op : UInt8} (hop : op = 0xFA ∨ op = 0xFB) (h : At s false op) :
    emulate port fuel s = some { s.next with vif := decide (op = 0xFB) } :=
  emulate_plain hf (execute_flag h hop)

end Emulated

theorem AtInt.useresp (h : AtInt s) (hsp : s.useresp < 2 ^ 16) : (s.int s.ip).useresp = s.useresp - 6 := by
  rw [int_useresp]
  exact (stack_sub hsp h.room).2.2

theorem AtInt.keeps (h : AtInt s) (hsp : s.useresp < 2 ^ 16) {s₂ : Context} (hin : Keeps (s.int s.ip) s₂) :
    Keeps s s₂.iret := by
  have hu := h.useresp hsp
  have hu2 : s₂.useresp % 2 ^ 16 = s₂.useresp := by
    rw [hin.useresp, hu]
    omega
  refine keeps_of_push hsp h.room int_ss hu ?_ hin iret_ss (by rw [iret_useresp, hu2]) iret_mem
  intro a ha
  rw [int_mem]
  exact pushedFrame_above hsp h.room ha

/-- A bracketed sequence comes to its end, and leaves the stack pointer and the stack above it. -/
theorem Fits.keeps (hf : 2 ≤ fuel) {b : Brackets} : ∀ {s}, Fits port fuel b s → s.useresp < 2 ^ 16 →
    ∃ s', follow port fuel b s = some s' ∧ Keeps s s' := by
  induction b with
  | done => exact fun _ _ => ⟨_, rfl, Keeps.refl _⟩
  | own f rest ih =>
    intro s h hsp
    obtain ⟨s', hs', hk⟩ := ih h.2 (by rw [h.1.useresp]; exact hsp)
    exact ⟨s', hs', h.1.trans hk⟩
  | flag op rest ih =>
    intro s h hsp
    obtain ⟨hop, hat, hrest⟩ := h
    have he := emulate_flag port hf hop hat
    obtain ⟨s', hs', hk⟩ := ih (hrest _ he) hsp
    have hflag : Keeps s { s.next with vif := decide (op = 0xFB) } := ⟨rfl, rfl, fun _ _ _ => rfl⟩
    exact ⟨s', by simp only [follow, he, Option.bind_some, hs'], hflag.trans hk⟩
  | flags w inner rest ih1 ih2 =>
    intro s h hsp
    obtain ⟨⟨hroom, hpush⟩, hgo⟩ := h
    obtain ⟨s₁, he1, p1, p2, p3⟩ := emulate_pushf port hf hsp hroom hpush
    obtain ⟨hin, hgo⟩ := hgo s₁ he1
    obtain ⟨s₂, hs₂, hinner⟩ := ih1 hin (by rw [p2]; omega)
    obtain ⟨hpop, hgo⟩ := hgo s₂ hs₂
    obtain ⟨s₃, he3, q1, q2, q3⟩ := emulate_popf port hf hpop
    have hk : Keeps s s₃ := by
      refine keeps_of_push hsp hroom p1 p2 p3 hinner q1 ?_ q3
      rw [q2, hinner.useresp, p2, Nat.mod_eq_of_lt (a := s.useresp - _) (by omega)]
    obtain ⟨s', hs', hk'⟩ := ih2 (hgo s₃ he3) (by rw [hk.useresp]; exact hsp)
    exact ⟨s', by simp only [follow, he1, hs₂, he3, Option.bind_some, hs'], hk.trans hk'⟩
  | int inner rest ih1 ih2 =>
    intro s h hsp
    obtain ⟨hint, hgo⟩ := h
    have he1 := emulate_int port hf hint
    obtain ⟨hin, hgo⟩ := hgo _ he1
    obtain ⟨s₂, hs₂, hinner⟩ := ih1 hin (by rw [hint.useresp hsp]; omega)
    obtain ⟨hiret, hgo⟩ := hgo s₂ hs₂
    have he3 := emulate_iret port hf hiret
    have hk := hint.keeps hsp hinner
    obtain ⟨s', hs', hk'⟩ := ih2 (hgo _ he3) (by rw [hk.useresp]; exact hsp)
    exact ⟨s', by simp only [follow, he1, hs₂, he3, Option.bind_some, hs'], hk.trans hk'⟩

/-! ### What an interrupt restores -/

theorem testBit_mask (x : ℕ) : (x &&& eflagIf ≠ 0) ↔ x.testBit 9 = true := by
  unfold eflagIf
  rw [Nat.one_shiftLeft, Nat.and_two_pow]
  cases x.testBit 9 <;> simp

theorem pushedFlags_if (s : Context) (x : ℕ) : (s.pushedFlags x % 2 ^ 16).testBit 9 = s.vif := by
  unfold pushedFlags
  cases s.vif with
  | true =>
    rw [if_pos rfl, Nat.testBit_mod_two_pow, Nat.testBit_or]
    have hbit : eflagIf.testBit 9 = true := by decide
    rw [hbit, Bool.or_true, Bool.and_true]
    rfl
  | false =>
    rw [if_neg (by decide), Nat.testBit_mod_two_pow, Nat.testBit_and]
    have hbit : (2 ^ 32 - 1 - eflagIf).testBit 9 = false := by decide +kernel
    rw [hbit, Bool.and_false, Bool.and_false]

theorem pushedFrame_words (hsp : s.useresp < 2 ^ 16) (hroom : 6 ≤ s.useresp) :
    s.pushedFrame.u16 (s.stack - 6 + 4) = (s.eip + 2) % 2 ^ 16 ∧
      s.pushedFrame.u16 (s.stack - 6 + 2) = s.cs % 2 ^ 16 ∧
      s.pushedFrame.u16 (s.stack - 6) = s.pushedFlags (s.eflags % 2 ^ 16) % 2 ^ 16 := by
  obtain ⟨hf, h6⟩ := frame_eq hsp hroom
  unfold pushedFrame
  rw [hf]
  refine ⟨?_, ?_, Buf.u16_setU16 _ _ _⟩
  · rw [Buf.u16_setU16_ne (by omega), Buf.u16_setU16_ne (by omega), Buf.u16_setU16]
  · rw [Buf.u16_setU16_ne (by omega), Buf.u16_setU16]

/-- The task goes on at the next instruction with the code segment, stack pointer and virtual interrupt flag
it had, and the stack from the stack pointer on is as it was. -/
structure Restored (s s' : Context) : Prop extends Keeps s s' where
  eip : s'.eip = (s.eip + 2) % 2 ^ 16
  cs : s'.cs = s.cs
  vif : s'.vif = s.vif

theorem AtInt.restored (h : AtInt s) (hcs : s.cs < 2 ^ 16) (hsp : s.useresp < 2 ^ 16) {s₂ : Context}
    (hin : Keeps (s.int s.ip) s₂) : Restored s s₂.iret := by
  have hu := h.useresp hsp
  have hst : s.stack = s.ss % 2 ^ 16 * 16 + s.useresp := by
    unfold stack fpToLinear
    rw [Nat.mod_eq_of_lt hsp]
  have hst1 : (s.int s.ip).stack = s.stack - 6 := by
    have hroom := h.room
    rw [hst]
    unfold stack fpToLinear
    rw [int_ss, hu, Nat.mod_eq_of_lt (a := s.useresp - 6) (by omega)]
    omega
  have hst2 : s₂.stack = s.stack - 6 := by
    rw [← hst1]
    unfold stack
    rw [hin.ss, hin.useresp]
  have hword : ∀ o, o ≤ 4 → s₂.mem.u16 (s.stack - 6 + o) = s.pushedFrame.u16 (s.stack - 6 + o) := by
    intro o ho
    have hroom := h.room
    apply Buf.u16_congr
    intro a h1 h2
    rw [hin.above a (by omega) (by rw [int_ss]; omega), int_mem]
  obtain ⟨w1, w2, w3⟩ := pushedFrame_words hsp h.room
  have h0 := hword 0 (by omega)
  rw [Nat.add_zero] at h0
  refine ⟨h.keeps hsp hin, ?_, ?_, ?_⟩
  · simp only [iret]
    rw [hst2, hword 4 (by omega), w1]
  · simp only [iret]
    rw [hst2, hword 2 (by omega), w2, Nat.mod_eq_of_lt hcs]
  · simp only [iret]
    rw [hst2, h0, w3]
    simp only [testBit_mask, pushedFlags_if, Bool.decide_eq_true]

/-- Interrupts nest: in a bracketed sequence the monitor does the `INT`, what its handler has of such
instructions and the `IRET`, which restores what was there before the `INT`, and the rest of the sequence. -/
theorem interrupts_nest (port : ℕ → ℕ) (fuel : ℕ) (hf : 2 ≤ fuel) (inner rest : Brackets) (s : Context)
    (hcs : s.cs < 2 ^ 16) (hsp : s.useresp < 2 ^ 16) (h : Fits port fuel (.int inner rest) s) :
    ∃ s₁ s₂ s₃ s', emulate port fuel s = some s₁ ∧ follow port fuel inner s₁ = some s₂ ∧
      emulate port fuel s₂ = some s₃ ∧ Restored s s₃ ∧ follow port fuel rest s₃ = some s' ∧ Keeps s s' := by
  obtain ⟨hint, hgo⟩ := h
  have he1 := emulate_int port hf hint
  obtain ⟨hfits, hgo⟩ := hgo _ he1
  obtain ⟨s₂, hs₂, hin⟩ := hfits.keeps hf (by rw [hint.useresp hsp]; omega)
  obtain ⟨hiret, hgo⟩ := hgo s₂ hs₂
  have he3 := emulate_iret port hf hiret
  have hr := hint.restored hcs hsp hin
  obtain ⟨s', hs', hk⟩ := (hgo _ he3).keeps hf (by rw [hr.useresp]; exact hsp)
  exact ⟨_, s₂, _, s', he1, hs₂, he3, hr, hs', hr.toKeeps.trans hk⟩

/-- `INT 0x10` at `0x100:0`. Its handler at `0x200:0` is `CLI`, `PUSHF`, `INT 0x11`, `POPF`, `IRET`, and
that of `INT 0x11` at `0x240:0` is `STI`, `IRET`. -/
def nestedInt : Context where
  cs := 0x100
  eip := 0
  ss := 0x300
  useresp := 0x40
  eflags := 0
  eax := 0
  edx := 0
  vif := true
  mem a := ([(0x1000, 0xCD), (0x1001, 0x10), (0x43, 2), (0x46, 0x40), (0x47, 2), (0x2000, 0xFA),
    (0x2001, 0x9C),
    (0x2002, 0xCD), (0x2003, 0x11), (0x2004, 0x9D), (0x2005, 0xCF), (0x2400, 0xFB), (0x2401, 0xCF)].lookup
      a).getD 0

theorem interrupts_nest_twice : ∃ s₁ s₂ s₃, emulate (fun _ => 0) 2 nestedInt = some s₁ ∧
    follow (fun _ => 0) 2 (.flag 0xFA (.flags false (.int (.flag 0xFB .done) .done) .done)) s₁ = some s₂ ∧
    emulate (fun _ => 0) 2 s₂ = some s₃ ∧ Restored nestedInt s₃ := by
  have h : Fits (fun _ => 0) 2 (.int (.flag 0xFA (.flags false (.int (.flag 0xFB .done) .done) .done)) .done)
    nestedInt := by decide +kernel
  obtain ⟨s₁, s₂, s₃, -, h1, h2, h3, hr, -⟩ :=
    interrupts_nest _ 2 le_rfl _ _ nestedInt (by decide) (by decide) h
  exact ⟨s₁, s₂, s₃, h1, h2, h3, hr⟩

end Context

end ChiffOS.Task.V86
