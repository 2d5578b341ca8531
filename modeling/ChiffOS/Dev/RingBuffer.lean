import ChiffOS.Lib.Circular
import ChiffOS.Lib.Runs

/-! The ring buffers of `ringbuffer.c` and the pipes of `pipe.c`. Any number of tasks read and write at the
same time, and a task may be preempted after every byte: a step is one byte moved, or the way from the
inner loop to the wait queue or out of the call. A sleeping task may be woken at any time. -/

namespace ChiffOS.Dev

open Circular

def newline : UInt8 := 0x0A

/-- A call that is under way, with what it has moved. -/
inductive Call where
  | write (buffer : List UInt8) (written : ℕ)
  | read (size : ℕ) (collected : List UInt8)
deriving DecidableEq

def Call.unfinished : Call → Prop
  | .write buffer written => written < buffer.length
  | .read _ collected => collected = []

instance (c : Call) : Decidable c.unfinished := by
  cases c <;> unfold Call.unfinished <;> infer_instance

def moveByte (l : Log UInt8) : Call → Option (Log UInt8 × Call)
  | .write buffer written =>
    if l.queue.available > 0 then
      buffer[written]?.map fun b =>
        (⟨l.queue.push b, l.accepted ++ [b], l.delivered⟩, .write buffer (written + 1))
    else none
  | .read size collected =>
    if l.queue.unread > 0 ∧ collected.length < size then
      some (⟨l.queue.pop, l.accepted, l.delivered ++ [l.queue.front]⟩,
        .read size (collected ++ [l.queue.front]))
    else none

/-- What the two kinds of buffers do differently: whether a call is refused at once, whether a write
without room gives up, whether a sleeper that was interrupted gives up, and what an interrupt sets. -/
structure Driver (F : Type) where
  refuses : F → Bool
  givesUp : F → Bool
  stops : F → Option F
  interrupt : F → F

structure RingFlags where
  internalStop : Bool
  discard : Bool
deriving DecidableEq

structure PipeFlags where
  dead : Bool
deriving DecidableEq

def ringBuffer : Driver RingFlags where
  refuses _ := false
  givesUp f := f.discard
  stops f := if f.internalStop then some { f with internalStop := false } else none
  interrupt f := { f with internalStop := true }

def pipe : Driver PipeFlags where
  refuses f := f.dead
  givesUp _ := false
  stops _ := none
  interrupt f := f

/-- Where a task is. -/
inductive Place where
  | idle
  | running (c : Call)
  | asleep (c : Call)
deriving DecidableEq

structure Channel (F : Type) where
  log : Log UInt8
  flags : F
  tasks : ℕ → Place

inductive Event where
  | callWrite (t : ℕ) (buffer : List UInt8)
  | callRead (t : ℕ) (size : ℕ)
  | run (t : ℕ)
  | wake (t : ℕ) (interrupted : Bool)
  | interrupt
deriving DecidableEq

namespace Driver

variable {F : Type} (D : Driver F)

def leaves (f : F) (c : Call) : Place :=
  if c.unfinished then
    match c with
    | .write _ _ => if D.givesUp f then .idle else .asleep c
    | .read _ _ => .asleep c
  else .idle

def enters (f : F) (c : Call) : Place := if D.refuses f then .idle else .running c

def step (s : Channel F) : Event → Option (Channel F)
  | .callWrite t buffer =>
    match s.tasks t with
    | .idle => some { s with tasks := Function.update s.tasks t (D.enters s.flags (.write buffer 0)) }
    | _ => none
  | .callRead t size =>
    match s.tasks t with
    | .idle => some { s with tasks := Function.update s.tasks t (D.enters s.flags (.read size [])) }
    | _ => none
  | .run t =>
    match s.tasks t with
    | .running c =>
      match moveByte s.log c with
      | some (l, c) => some { s with log := l, tasks := Function.update s.tasks t (.running c) }
      | none => some { s with tasks := Function.update s.tasks t (D.leaves s.flags c) }
    | _ => none
  | .wake t interrupted =>
    match s.tasks t with
    | .asleep c =>
      match if interrupted then D.stops s.flags else none with
      | some f => some { s with flags := f, tasks := Function.update s.tasks t .idle }
      | none => some { s with tasks := Function.update s.tasks t (.running c) }
    | _ => none
  | .interrupt => some { s with flags := D.interrupt s.flags }

end Driver

/-- A new buffer, over whatever its memory holds, that no task uses yet. -/
def Channel.create {F : Type} (size : ℕ) (buffer : ℕ → UInt8) (flags : F) : Channel F :=
  ⟨⟨Circular.empty size buffer, [], []⟩, flags, fun _ => .idle⟩

/-! ### First in, first out -/

theorem moveByte_step {l l' : Log UInt8} {c c' : Call} (h : moveByte l c = some (l', c')) : l.Step l' := by
  cases c with
  | write buffer written =>
    simp only [moveByte] at h
    split_ifs at h with ha
    obtain ⟨b, -, hb⟩ := Option.map_eq_some_iff.mp h
    obtain ⟨rfl, -⟩ := Prod.mk.inj hb
    exact .accept l b ha
  | read size collected =>
    simp only [moveByte] at h
    split_ifs at h with hu
    obtain ⟨rfl, -⟩ := Prod.mk.inj (Option.some.inj h)
    exact .deliver l hu.1

namespace Driver

variable {F : Type} {D : Driver F} {s s' : Channel F}

theorem step_log {e : Event} (h : D.step s e = some s') : s'.log = s.log ∨ s.log.Step s'.log := by
  cases e with
  | callWrite t buffer =>
    simp only [step] at h
    split at h
    · obtain rfl := Option.some.inj h
      exact .inl rfl
    · simp at h
  | callRead t size =>
    simp only [step] at h
    split at h
    · obtain rfl := Option.some.inj h
      exact .inl rfl
    · simp at h
  | run t =>
    simp only [step] at h
    split at h
    · split at h
      next hm =>
        obtain rfl := Option.some.inj h
        exact .inr (moveByte_step hm)
      next =>
        obtain rfl := Option.some.inj h
        exact .inl rfl
    · simp at h
  | wake t interrupted =>
    simp only [step] at h
    split at h
    · split at h
      all_goals
        obtain rfl := Option.some.inj h
        exact .inl rfl
    · simp at h
  | interrupt =>
    obtain rfl := Option.some.inj h
    exact .inl rfl

theorem step_fifo {e : Event} (h : s.log.Fifo) (hs : D.step s e = some s') :
    s'.log.Fifo ∧ s'.log.queue.size = s.log.queue.size := by
  rcases step_log hs with he | hl
  · rw [he]
    exact ⟨h, rfl⟩
  · exact ⟨h.step hl, hl.size⟩

end Driver

/-- The indices are in the buffer, the counts share all of it but one byte, what was delivered is the
beginning of what was accepted, and the rest of it is unread. -/
structure FifoChannel (size : ℕ) (l : Log UInt8) : Prop where
  readPtr : l.queue.readPtr < size
  writePtr : l.queue.writePtr < size
  counts : l.queue.unread + l.queue.available = size - 1
  order : l.delivered <+: l.accepted
  rest : l.accepted.length = l.delivered.length + l.queue.unread

theorem Driver.runs_channel {F : Type} {D : Driver F} {size : ℕ} (hsize : 2 ≤ size) {buffer : ℕ → UInt8}
    {flags : F}
    {es : List Event} {s : Channel F} (h : Machine.runs D.step (.create size buffer flags) es = some s) :
    FifoChannel size s.log := by
  have hnew : (Channel.create size buffer flags).log.Fifo := ⟨empty_valid (by omega) buffer, rfl⟩
  obtain ⟨hf, hs⟩ := Machine.invariant (I := fun s : Channel F => s.log.Fifo ∧ s.log.queue.size = size)
    (fun s e s' hi he => ⟨(step_fifo hi.1 he).1, (step_fifo hi.1 he).2.trans hi.2⟩) es _ s ⟨hnew, rfl⟩ h
  refine ⟨hs ▸ hf.valid.read, hs ▸ hf.valid.write, ?_, hf.in_order, hf.length⟩
  rw [hf.valid.unread_add_available, hs]

/-- Ring buffers and pipes are channels in every state of every run. -/
theorem ring_buffers_fifo (size : ℕ) (hsize : 2 ≤ size) (buffer : ℕ → UInt8) :
    (∀ (flags : RingFlags) (es : List Event) (s : Channel RingFlags),
      Machine.runs ringBuffer.step (.create size buffer flags) es = some s → FifoChannel size s.log) ∧
    ∀ (flags : PipeFlags) (es : List Event) (s : Channel PipeFlags),
      Machine.runs pipe.step (.create size buffer flags) es = some s → FifoChannel size s.log :=
  ⟨fun _ _ _ h => Driver.runs_channel hsize h, fun _ _ _ h => Driver.runs_channel hsize h⟩

/-- Two bytes for a buffer that holds one: the reader takes the first, and the writer goes on. -/
theorem ring_buffers_fifo_wrap : ∃ s,
    Machine.runs ringBuffer.step (.create 2 (fun _ => 0) ⟨false, false⟩) [.callWrite 0 [7, 8], .run 0, .run 0,
      .callRead 1 2, .run 1, .wake 0 false, .run 0] = some s ∧ (s.log.delivered, s.log.accepted) =
        ([7], [7, 8]) ∧
      FifoChannel 2 s.log := by
  have hrun : (Machine.runs ringBuffer.step (.create 2 (fun _ => 0) ⟨false, false⟩) [.callWrite 0 [7, 8],
    .run 0, .run 0,
      .callRead 1 2, .run 1, .wake 0 false, .run 0]).map (fun s => (s.log.delivered, s.log.accepted)) =
      some ([7], [7, 8]) := by decide
  obtain ⟨s, h, hlog⟩ := Option.map_eq_some_iff.mp hrun
  exact ⟨s, h, hlog, (ring_buffers_fifo 2 le_rfl fun _ => 0).1 _ _ s h⟩

end ChiffOS.Dev
