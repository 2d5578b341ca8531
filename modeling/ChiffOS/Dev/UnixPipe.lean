import ChiffOS.Lib.Count
import ChiffOS.Dev.RingBuffer

/-! The pipes of `unixpipe.c`: a ring buffer with two ends that can be closed. A read ends with a newline, and
after the write end is closed. The calls are interleaved byte by byte, with the test at the head of each
loop, the access to the ring buffer and the sleep in it as steps. -/

namespace ChiffOS.Dev

open Circular List Option

def unixPipeBuffer : ℕ := 512

/-- Where a call stands: before the test of its loop, in `ring_buffer_read` or `ring_buffer_write` for the
next byte, or asleep there. -/
inductive Phase where
  | check
  | ring
  | asleep
deriving DecidableEq

/-- A read: the size asked for and what it has so far. `late` says that a read had come to the end of the
pipe before this one was called. -/
structure Reader where
  size : ℕ
  got : List UInt8
  late : Bool
deriving DecidableEq

def Reader.short (r : Reader) : Bool := r.got.length < r.size ∧ r.got.getLast? ≠ some newline

inductive PipeCall where
  | reading (phase : Phase) (r : Reader)
  | writing (phase : Phase) (buffer : List UInt8) (written : ℕ)
  | returned
deriving DecidableEq

def PipeCall.isWriting : PipeCall → Bool
  | writing _ _ _ => true
  | _ => false

def PipeCall.reader? : PipeCall → Option Reader
  | reading _ r => some r
  | _ => none

/-- `struct unix_pipe`, the calls on it, and the reads that have returned. -/
structure UnixPipe where
  log : Log UInt8
  flags : RingFlags
  readClosed : Bool
  writeClosed : Bool
  calls : List PipeCall
  results : List Reader

/-- The write end is closed after the last write. -/
inductive UnixPipeEvent where
  | callRead (size : ℕ)
  | callWrite (buffer : List UInt8)
  | run (i : ℕ)
  | wake (i : ℕ) (interrupted : Bool)
  | closeWrite
deriving DecidableEq

namespace UnixPipe

def setCall (s : UnixPipe) (i : ℕ) (c : PipeCall) : UnixPipe := { s with calls := s.calls.set i c }

def returns (s : UnixPipe) (i : ℕ) (r : Reader) : UnixPipe :=
    { s.setCall i .returned with results := s.results ++ [r] }

def take (s : UnixPipe) : UnixPipe :=
  { s with log := ⟨s.log.queue.pop, s.log.accepted, s.log.delivered ++ [s.log.queue.front]⟩ }

def put (s : UnixPipe) (b : UInt8) : UnixPipe :=
  { s with log := ⟨s.log.queue.push b, s.log.accepted ++ [b], s.log.delivered⟩ }

def runRead (s : UnixPipe) (i : ℕ) (r : Reader) : Phase → Option UnixPipe
  | .check =>
    if r.got.length < r.size then
      if s.writeClosed ∧ s.log.queue.unread =
        0 then some (s.returns i r) else some (s.setCall i (.reading .ring r))
    else some (s.returns i r)
  | .ring =>
    if s.log.queue.unread > 0 then
      let r' := { r with got := r.got ++ [s.log.queue.front] }
      if s.log.queue.front =
        newline then some (s.take.returns i r') else some (s.take.setCall i (.reading .check r'))
    else some (s.setCall i (.reading .asleep r))
  | .asleep => none

def runWrite (s : UnixPipe) (i : ℕ) (buffer : List UInt8) (written : ℕ) : Phase → Option UnixPipe
  | .check =>
    if written < buffer.length then
      if s.readClosed then some (s.setCall i .returned) else some
        (s.setCall i (.writing .ring buffer written))
    else some (s.setCall i .returned)
  | .ring =>
    if s.log.queue.available > 0 then
      buffer[written]?.map fun b => (s.put b).setCall i (.writing .check buffer (written + 1))
    else if s.flags.discard then some (s.setCall i (.writing .check buffer written))
    else some (s.setCall i (.writing .asleep buffer written))
  | .asleep => none

def wakes (s : UnixPipe) (i : ℕ) (interrupted : Bool) (call : Phase → PipeCall) : UnixPipe :=
  match if interrupted then ringBuffer.stops s.flags else none with
  | some f => { s.setCall i (call .check) with flags := f }
  | none => s.setCall i (call .ring)

def ended (s : UnixPipe) : Bool := s.results.any Reader.short

def step (s : UnixPipe) : UnixPipeEvent → Option UnixPipe
  | .callRead size => some { s with calls := s.calls ++ [.reading .check ⟨size, [], s.ended⟩] }
  | .callWrite buffer => if s.writeClosed then none else some { s with calls :=
    s.calls ++ [.writing .check buffer 0] }
  | .run i =>
    match s.calls[i]? with
    | some (.reading phase r) => s.runRead i r phase
    | some (.writing phase buffer written) => s.runWrite i buffer written phase
    | _ => none
  | .wake i interrupted =>
    match s.calls[i]? with
    | some (.reading .asleep r) => some (s.wakes i interrupted fun phase => .reading phase r)
    | some (.writing .asleep buffer written) =>
      some (s.wakes i interrupted fun phase => .writing phase buffer written)
    | _ => none
  | .closeWrite =>
    if s.writeClosed ∨ s.calls.any PipeCall.isWriting then none
    else some { s with writeClosed := true, flags :=
      if s.readClosed then s.flags else ringBuffer.interrupt s.flags }

end UnixPipe

def makeUnixPipe (buffer : ℕ → UInt8) : UnixPipe :=
  ⟨⟨Circular.empty unixPipeBuffer buffer, [], []⟩, ⟨false, false⟩, false, false, [], []⟩

namespace UnixPipe

/-! ### What the calls keep -/

def Drained (s : UnixPipe) : Prop := s.writeClosed = true ∧ s.log.queue.unread = 0

/-- A read that is under way. One that was called after the end is before the test of its loop. -/
structure Clean (s : UnixPipe) (phase : Phase) (r : Reader) : Prop where
  line : newline ∉ r.got
  order : r.got.Sublist s.log.delivered
  late : r.late = true → phase = .check ∧ r.got = [] ∧ s.Drained

/-- A read that has returned. -/
structure Fine (s : UnixPipe) (r : Reader) : Prop where
  line : newline ∉ r.got.dropLast
  order : r.got.Sublist s.log.delivered
  short : r.short = true → s.Drained
  late : r.late = true → r.got = []

structure Inv (s : UnixPipe) : Prop where
  fifo : s.log.Fifo
  closed : s.writeClosed = true → ∀ c ∈ s.calls, c.isWriting = false
  reading : ∀ phase r, .reading phase r ∈ s.calls → s.Clean phase r
  results : ∀ r ∈ s.results, s.Fine r

/-- What was delivered stays delivered, and a drained pipe stays drained. -/
structure Later (s s' : UnixPipe) : Prop where
  delivered : s.log.delivered <+: s'.log.delivered
  drained : s.Drained → s'.Drained

variable {s s' : UnixPipe} {phase : Phase} {r : Reader}

theorem Clean.later (h : s.Clean phase r) (hl : s.Later s') : s'.Clean phase r := by
  refine ⟨h.line, h.order.trans hl.delivered.sublist, fun hr => ?_⟩
  obtain ⟨hphase, hgot, hd⟩ := h.late hr
  exact ⟨hphase, hgot, hl.drained hd⟩

theorem Fine.later (h : s.Fine r) (hl : s.Later s') : s'.Fine r :=
  ⟨h.line, h.order.trans hl.delivered.sublist, fun hr => hl.drained (h.short hr), h.late⟩

theorem Later.same (hl : s'.log = s.log) (hc : s'.writeClosed = s.writeClosed) : s.Later s' :=
  ⟨hl ▸ prefix_refl _, fun h => ⟨hc ▸ h.1, hl ▸ h.2⟩⟩

/-- A call may be in a place: no writer is left when the write end is closed. -/
structure Allowed (s : UnixPipe) (c : PipeCall) : Prop where
  writing : c.isWriting = true → s.writeClosed = false
  reading : ∀ phase r, c = .reading phase r → s.Clean phase r

variable {c : PipeCall}

theorem Inv.allowed (h : s.Inv) (hc : c ∈ s.calls) : s.Allowed c := by
  refine ⟨fun hw => ?_, fun phase r he => h.reading phase r (he ▸ hc)⟩
  by_contra hn
  have hf := h.closed (by simpa using hn) c hc
  rw [hw] at hf
  cases hf

theorem Allowed.later (h : s.Allowed c) (hl : s.Later s') (hc : s'.writeClosed = s.writeClosed) :
    s'.Allowed c :=
  ⟨fun hw => hc ▸ h.writing hw, fun phase r he => (h.reading phase r he).later hl⟩

theorem Inv.of_allowed (hf : s.log.Fifo) (hcalls : ∀ c ∈ s.calls, s.Allowed c)
    (hresults : ∀ r ∈ s.results, s.Fine r) : s.Inv := by
  refine ⟨hf, fun hclosed c hc => ?_, fun phase r hc => (hcalls _ hc).reading phase r rfl, hresults⟩
  by_contra hn
  have hopen := (hcalls c hc).writing (by simpa using hn)
  rw [hclosed] at hopen
  cases hopen

theorem Inv.setCall (h : s.Inv) (i : ℕ) (hc : s.Allowed c) : (s.setCall i c).Inv := by
  have hl : s.Later (s.setCall i c) := Later.same rfl rfl
  refine Inv.of_allowed h.fifo (fun d hd => ?_) fun r hr => (h.results r hr).later hl
  rcases mem_or_eq_of_mem_set hd with hold | rfl
  · exact (h.allowed hold).later hl rfl
  · exact hc.later hl rfl

theorem Inv.call (h : s.Inv) (hc : s.Allowed c) : ({ s with calls := s.calls ++ [c] } : UnixPipe).Inv := by
  have hl : s.Later { s with calls := s.calls ++ [c] } := Later.same rfl rfl
  refine Inv.of_allowed h.fifo (fun d hd => ?_) fun r hr => (h.results r hr).later hl
  rcases mem_append.mp hd with hold | hnew
  · exact (h.allowed hold).later hl rfl
  · exact mem_singleton.mp hnew ▸ hc.later hl rfl

theorem Inv.flags (h : s.Inv) (f : RingFlags) : ({ s with flags := f } : UnixPipe).Inv := by
  have hl : s.Later { s with flags := f } := Later.same rfl rfl
  exact Inv.of_allowed h.fifo (fun c hc => (h.allowed hc).later hl rfl) fun r hr => (h.results r hr).later hl

theorem allowed_returned (s : UnixPipe) : s.Allowed .returned := by
  refine ⟨fun hw => ?_, fun phase r he => ?_⟩
  · cases hw
  · cases he

theorem allowed_reading (h : s.Clean phase r) : s.Allowed (.reading phase r) := by
  refine ⟨fun hw => ?_, fun phase' r' he => ?_⟩
  · cases hw
  · cases he
    exact h

theorem allowed_writing {buffer : List UInt8} {written : ℕ} (h : s.writeClosed = false) :
    s.Allowed (.writing phase buffer written) := by
  refine ⟨fun _ => h, fun phase' r' he => ?_⟩
  cases he

theorem Inv.returns (h : s.Inv) (i : ℕ) (hr : s.Fine r) : (s.returns i r).Inv := by
  have h1 : (s.setCall i .returned).Inv := h.setCall i (allowed_returned s)
  have hl : (s.setCall i .returned).Later (s.returns i r) := Later.same rfl rfl
  have hl' : s.Later (s.returns i r) := Later.same rfl rfl
  refine Inv.of_allowed h.fifo (fun c hc => (h1.allowed hc).later hl rfl) fun r' hr' => ?_
  rcases mem_append.mp hr' with hold | hnew
  · exact (h.results r' hold).later hl'
  · exact mem_singleton.mp hnew ▸ hr.later hl'

theorem later_take (hu : 0 < s.log.queue.unread) : s.Later s.take :=
  ⟨prefix_append _ _, fun hd => absurd hd.2 hu.ne'⟩

theorem Inv.take (h : s.Inv) (hu : 0 < s.log.queue.unread) : s.take.Inv :=
  Inv.of_allowed (h.fifo.step (.deliver s.log hu)) (fun _ hc => (h.allowed hc).later (later_take hu) rfl)
    fun r hr => (h.results r hr).later (later_take hu)

theorem Inv.put (h : s.Inv) (ha : 0 < s.log.queue.available) (hopen : s.writeClosed = false) (b : UInt8) :
    (s.put b).Inv := by
  have hl : s.Later (s.put b) := ⟨prefix_refl _, fun hd => absurd hd.1 (by simp [hopen])⟩
  exact Inv.of_allowed (h.fifo.step (.accept s.log b ha)) (fun _ hc => (h.allowed hc).later hl rfl)
    fun r hr => (h.results r hr).later hl

/-- A read that is past the test of its loop, or asleep, was not called after the end. -/
theorem Clean.go (h : s.Clean phase r) (hp : phase ≠ .check) (phase' : Phase) : s.Clean phase' r :=
  ⟨h.line, h.order, fun hl => absurd (h.late hl).1 hp⟩

/-- A read gets its next byte. -/
theorem Clean.take (h : s.Clean phase r) (hu : 0 < s.log.queue.unread) :
    (r.got ++ [s.log.queue.front]).Sublist s.take.log.delivered ∧ r.late = false := by
  refine ⟨h.order.append (List.Sublist.refl _), ?_⟩
  by_contra hl
  exact absurd (h.late (by simpa using hl)).2.2.2 hu.ne'

variable {i : ℕ}

theorem Inv.runRead (h : s.Inv) (hc : s.Clean phase r) (hs : s.runRead i r phase = some s') : s'.Inv := by
  have hline : newline ∉ r.got.dropLast := fun hn => hc.line (mem_of_mem_dropLast hn)
  cases phase with
  | check =>
    simp only [UnixPipe.runRead] at hs
    split_ifs at hs with hsize hend
    · obtain rfl := some.inj hs
      exact h.returns i ⟨hline, hc.order, fun _ => hend, fun hl => (hc.late hl).2.1⟩
    · obtain rfl := some.inj hs
      exact h.setCall i (allowed_reading ⟨hc.line, hc.order, fun hl => absurd (hc.late hl).2.2 hend⟩)
    · obtain rfl := some.inj hs
      refine h.returns i ⟨hline, hc.order, fun hshort => ?_, fun hl => (hc.late hl).2.1⟩
      simp only [Reader.short, decide_eq_true_eq] at hshort
      exact absurd hshort.1 hsize
  | ring =>
    simp only [UnixPipe.runRead] at hs
    split_ifs at hs with hu hb
    · obtain rfl := some.inj hs
      obtain ⟨horder, hlate⟩ := hc.take hu
      refine (h.take hu).returns i ⟨?_, horder, fun hshort => ?_, fun hl => absurd hl (by simp [hlate])⟩
      · rw [dropLast_concat]
        exact hc.line
      · simp only [Reader.short, decide_eq_true_eq, List.getLast?_concat, hb] at hshort
        exact absurd rfl hshort.2
    · obtain rfl := some.inj hs
      obtain ⟨horder, hlate⟩ := hc.take hu
      refine (h.take hu).setCall i (allowed_reading ⟨?_, horder, fun hl => absurd hl (by simp [hlate])⟩)
      rw [mem_append, mem_singleton, not_or]
      exact ⟨hc.line, Ne.symm hb⟩
    · obtain rfl := some.inj hs
      exact h.setCall i (allowed_reading (hc.go (by decide) .asleep))
  | asleep => cases hs

theorem Inv.runWrite (h : s.Inv) {i written : ℕ} {buffer : List UInt8} (hopen : s.writeClosed = false)
    (hs : s.runWrite i buffer written phase = some s') : s'.Inv := by
  cases phase with
  | check =>
    simp only [UnixPipe.runWrite] at hs
    split_ifs at hs
    · obtain rfl := some.inj hs
      exact h.setCall i (allowed_returned s)
    · obtain rfl := some.inj hs
      exact h.setCall i (allowed_writing hopen)
    · obtain rfl := some.inj hs
      exact h.setCall i (allowed_returned s)
  | ring =>
    simp only [UnixPipe.runWrite] at hs
    split_ifs at hs with ha
    · obtain ⟨b, -, rfl⟩ := map_eq_some_iff.mp hs
      exact (h.put ha hopen b).setCall i (allowed_writing hopen)
    · obtain rfl := some.inj hs
      exact h.setCall i (allowed_writing hopen)
    · obtain rfl := some.inj hs
      exact h.setCall i (allowed_writing hopen)
  | asleep => cases hs

theorem Inv.wakes (h : s.Inv) (i : ℕ) (interrupted : Bool) {call : Phase → PipeCall}
    (hc : ∀ phase, s.Allowed (call phase)) :
    (s.wakes i interrupted call).Inv := by
  unfold UnixPipe.wakes
  split
  · exact (h.setCall i (hc .check)).flags _
  · exact h.setCall i (hc .ring)

theorem Inv.close (h : s.Inv) (hopen : s.writeClosed = false) (hidle : ∀ c ∈ s.calls, c.isWriting = false)
    (f : RingFlags) :
    ({ s with writeClosed := true, flags := f } : UnixPipe).Inv := by
  have hl : s.Later { s with writeClosed := true, flags := f } :=
    ⟨prefix_refl _, fun hd => absurd hd.1 (by simp [hopen])⟩
  exact ⟨h.fifo, fun _ => hidle, fun phase r hc => (h.reading phase r hc).later hl, fun r hr =>
    (h.results r hr).later hl⟩

theorem Inv.step (s : UnixPipe) (e : UnixPipeEvent) (s' : UnixPipe) (h : s.Inv) (hs : s.step e = some s') :
    s'.Inv := by
  cases e with
  | callRead size =>
    obtain rfl := some.inj hs
    refine h.call (allowed_reading ⟨not_mem_nil, nil_sublist _, fun hl => ⟨rfl, rfl, ?_⟩⟩)
    obtain ⟨r, hr, hshort⟩ := any_eq_true.mp hl
    exact (h.results r hr).short hshort
  | callWrite buffer =>
    simp only [UnixPipe.step] at hs
    split_ifs at hs with hopen
    obtain rfl := some.inj hs
    exact h.call (allowed_writing (by simpa using hopen))
  | run i =>
    simp only [UnixPipe.step] at hs
    split at hs
    next phase r hi => exact h.runRead (h.reading phase r (mem_of_getElem? hi)) hs
    next phase buffer written hi => exact h.runWrite ((h.allowed (mem_of_getElem? hi)).writing rfl) hs
    · cases hs
  | wake i interrupted =>
    simp only [UnixPipe.step] at hs
    split at hs
    next r hi =>
      obtain rfl := some.inj hs
      have hc := h.reading .asleep r (mem_of_getElem? hi)
      exact h.wakes i interrupted fun phase => allowed_reading (hc.go (by decide) phase)
    next buffer written hi =>
      obtain rfl := some.inj hs
      exact h.wakes i interrupted fun phase => allowed_writing ((h.allowed (mem_of_getElem? hi)).writing rfl)
    · cases hs
  | closeWrite =>
    simp only [UnixPipe.step] at hs
    split_ifs at hs with hc hrd
    all_goals
      obtain ⟨hopen, hidle⟩ := not_or.mp hc
      obtain rfl := some.inj hs
      exact h.close (by simpa using hopen) (by simpa using hidle) _

/-! ### Reads that do not overlap -/

def current (s : UnixPipe) : List Reader := s.calls.filterMap PipeCall.reader?

def Alone (s : UnixPipe) : UnixPipeEvent → Prop
  | .callRead _ => s.current = []
  | _ => True

instance (s : UnixPipe) : ∀ e, Decidable (s.Alone e)
  | .callRead _ => inferInstanceAs (Decidable (s.current = []))
  | .callWrite _ | .run _ | .wake _ _ | .closeWrite => isTrue trivial

/-- At most one read is under way, and it has what was delivered last. -/
structure Sequential (s : UnixPipe) : Prop where
  one : s.current.length ≤ 1
  delivered : s.log.delivered = ((s.results ++ s.current).map Reader.got).flatten

theorem current_setCall (hi : s.calls[i]? = some c) (c' : PipeCall) :
    ∃ before after, s.current = before ++ c.reader?.toList ++ after ∧
      (s.setCall i c').current = before ++ c'.reader?.toList ++ after := filterMap_set hi c'

theorem current_writing {c c' : PipeCall} (hi : s.calls[i]? = some c) (hc : c.reader? = none)
    (hc' : c'.reader? = none) :
    (s.setCall i c').current = s.current := by
  obtain ⟨before, after, h1, h2⟩ := current_setCall hi c'
  rw [h1, h2, hc, hc']

theorem Sequential.current_reading (h : s.Sequential) (hi : s.calls[i]? = some (.reading phase r))
    (c' : PipeCall) : s.current = [r] ∧ (s.setCall i c').current = c'.reader?.toList := by
  obtain ⟨before, after, h1, h2⟩ := current_setCall hi c'
  have hone := h.one
  rw [h1] at hone
  simp only [PipeCall.reader?, toList_some, length_append, length_singleton] at hone
  obtain rfl : before = [] := eq_nil_of_length_eq_zero (by omega)
  obtain rfl : after = [] := eq_nil_of_length_eq_zero (by omega)
  exact ⟨by simpa [PipeCall.reader?] using h1, by simpa using h2⟩

theorem Sequential.same (h : s.Sequential) (hc : s'.current = s.current)
    (hd : s'.log.delivered = s.log.delivered)
    (hr : s'.results = s.results) : s'.Sequential :=
  ⟨hc ▸ h.one, by rw [hd, hr, hc]; exact h.delivered⟩

theorem Sequential.returns (h : s.Sequential) (hi : s.calls[i]? = some (.reading phase r)) :
    (s.returns i r).Sequential := by
  obtain ⟨h1, h2⟩ := h.current_reading hi .returned
  have hnone : (s.returns i r).current = [] := h2
  refine ⟨by simp [hnone], ?_⟩
  have hd := h.delivered
  rw [h1] at hd
  rw [hnone, append_nil]
  exact hd

/-- The read that is under way gets a byte. -/
theorem Sequential.take (h : s.Sequential) (hi : s.calls[i]? = some (.reading phase r)) (phase' : Phase) :
    (s.take.setCall i (.reading phase' { r with got := r.got ++ [s.log.queue.front] })).Sequential := by
  obtain ⟨h1, h2⟩ := h.current_reading hi (.reading phase' { r with got := r.got ++ [s.log.queue.front] })
  have hone : (s.take.setCall i (.reading phase' { r with got := r.got ++ [s.log.queue.front] })).current =
    [{ r with got := r.got ++ [s.log.queue.front] }] := h2
  refine ⟨by simp [hone], ?_⟩
  have hd := h.delivered
  rw [h1] at hd
  rw [hone]
  change s.log.delivered ++ [s.log.queue.front] = _
  rw [hd]
  simp [UnixPipe.take, UnixPipe.setCall]

theorem Sequential.runRead (h : s.Sequential) (hi : s.calls[i]? = some (.reading phase r))
    (hs : s.runRead i r phase = some s') : s'.Sequential := by
  have hstay : ∀ phase', (s.setCall i (.reading phase' r)).Sequential := by
    intro phase'
    obtain ⟨h1, h2⟩ := h.current_reading hi (.reading phase' r)
    exact h.same (h2.trans h1.symm) rfl rfl
  cases phase with
  | check =>
    simp only [UnixPipe.runRead] at hs
    split_ifs at hs
    all_goals
      obtain rfl := some.inj hs
    · exact h.returns hi
    · exact hstay .ring
    · exact h.returns hi
  | ring =>
    simp only [UnixPipe.runRead] at hs
    split_ifs at hs
    all_goals
      obtain rfl := some.inj hs
    · -- the byte is taken before the call returns
      have hlt := (List.getElem?_eq_some_iff.mp hi).1
      have hhere :
        (s.take.setCall i (.reading .check { r with got := r.got ++ [s.log.queue.front] })).calls[i]? =
          some (.reading .check { r with got := r.got ++ [s.log.queue.front] }) := List.getElem?_set_self hlt
      have hret := (h.take hi .check).returns hhere
      simpa [UnixPipe.returns, UnixPipe.setCall] using hret
    · exact h.take hi .check
    · exact hstay .asleep
  | asleep => cases hs

theorem Sequential.runWrite (h : s.Sequential) {i written : ℕ} {buffer : List UInt8}
    (hi : s.calls[i]? = some (.writing phase buffer written)) (hs : s.runWrite i buffer written phase =
      some s') :
    s'.Sequential := by
  have hgo : ∀ c : PipeCall, c.reader? = none → (s.setCall i c).Sequential :=
    fun c hc => h.same (current_writing hi rfl hc) rfl rfl
  cases phase with
  | check =>
    simp only [UnixPipe.runWrite] at hs
    split_ifs at hs
    all_goals
      obtain rfl := some.inj hs
      exact hgo _ rfl
  | ring =>
    simp only [UnixPipe.runWrite] at hs
    split_ifs at hs
    · obtain ⟨b, -, rfl⟩ := map_eq_some_iff.mp hs
      have hcur : ((s.put b).setCall i (.writing .check buffer (written + 1))).current = s.current :=
        current_writing hi rfl rfl
      exact h.same hcur rfl rfl
    all_goals
      obtain rfl := some.inj hs
      exact hgo _ rfl
  | asleep => cases hs

theorem Sequential.wakes (h : s.Sequential) {interrupted : Bool} {call : Phase → PipeCall}
    (hc : ∀ phase, (s.setCall i (call phase)).current = s.current) :
      (s.wakes i interrupted call).Sequential := by
  unfold UnixPipe.wakes
  split
  · exact h.same (hc .check) rfl rfl
  · exact h.same (hc .ring) rfl rfl

theorem Sequential.step (s : UnixPipe) (e : UnixPipeEvent) (s' : UnixPipe) (h : s.Sequential) (hg : s.Alone e)
    (hs : s.step e = some s') : s'.Sequential := by
  cases e with
  | callRead size =>
    obtain rfl := some.inj hs
    have hcur : s.current = [] := hg
    have hnew : ({ s with calls := s.calls ++ [.reading .check ⟨size, [], s.ended⟩] } : UnixPipe).current =
        [⟨size, [], s.ended⟩] := by
      unfold current at hcur ⊢
      rw [filterMap_append, hcur]
      rfl
    refine ⟨by simp [hnew], ?_⟩
    have hd := h.delivered
    rw [hcur, append_nil] at hd
    rw [hnew]
    simpa using hd
  | callWrite buffer =>
    simp only [UnixPipe.step] at hs
    split_ifs at hs
    obtain rfl := some.inj hs
    refine h.same ?_ rfl rfl
    unfold current
    rw [filterMap_append]
    exact append_nil _
  | run i =>
    simp only [UnixPipe.step] at hs
    split at hs
    next phase r hi => exact h.runRead hi hs
    next phase buffer written hi => exact h.runWrite hi hs
    · cases hs
  | wake i interrupted =>
    simp only [UnixPipe.step] at hs
    split at hs
    next r hi =>
      obtain rfl := some.inj hs
      refine h.wakes fun phase => ?_
      obtain ⟨h1, h2⟩ := h.current_reading hi (.reading phase r)
      exact h2.trans h1.symm
    next buffer written hi =>
      obtain rfl := some.inj hs
      exact h.wakes fun phase => current_writing hi rfl rfl
    · cases hs
  | closeWrite =>
    simp only [UnixPipe.step] at hs
    split_ifs at hs
    all_goals
      obtain rfl := some.inj hs
      exact h.same rfl rfl rfl

end UnixPipe

theorem makeUnixPipe_inv (buffer : ℕ → UInt8) : (makeUnixPipe buffer).Inv :=
  ⟨⟨empty_valid (by decide) buffer, rfl⟩, fun _ _ hc => absurd hc not_mem_nil, fun _ _ hc =>
    absurd hc not_mem_nil,
    fun _ hr => absurd hr not_mem_nil⟩

/-- What was read: line by line, up to the end, and in order where reads do not overlap. A read that is called
after the end returns at its first step, with nothing. -/
structure ReadsLines (s : UnixPipe) : Prop where
  order : s.log.delivered <+: s.log.accepted
  parts : ∀ r ∈ s.results, r.got.Sublist s.log.accepted
  lines : ∀ r ∈ s.results, newline ∉ r.got.dropLast
  short : ∀ r ∈ s.results, r.short = true → s.writeClosed = true ∧ s.log.delivered = s.log.accepted
  late : ∀ r ∈ s.results, r.late = true → r.got = []
  returns : ∀ (i : ℕ) phase r, s.calls[i]? = some (.reading phase r) → r.late = true →
    s.step (.run i) = some (s.returns i r) ∧ r.got = []

theorem UnixPipe.Clean.returns {s : UnixPipe} {phase : Phase} {r : Reader} (h : s.Clean phase r)
    (hl : r.late = true)
    (i : ℕ) : s.runRead i r phase = some (s.returns i r) ∧ r.got = [] := by
  obtain ⟨rfl, hgot, hd⟩ := h.late hl
  refine ⟨?_, hgot⟩
  simp only [UnixPipe.runRead, hd.1, hd.2, and_self, if_true, ite_self]

theorem UnixPipe.Inv.readsLines {s : UnixPipe} (h : s.Inv) : ReadsLines s where
  order := h.fifo.in_order
  parts r hr := (h.results r hr).order.trans h.fifo.in_order.sublist
  lines r hr := (h.results r hr).line
  short r hr hs := by
    obtain ⟨hclosed, hunread⟩ := (h.results r hr).short hs
    have hlen := h.fifo.length
    rw [hunread, Nat.add_zero] at hlen
    exact ⟨hclosed, h.fifo.in_order.eq_of_length hlen.symm⟩
  late r hr := (h.results r hr).late
  returns i phase r hi hl := by
    simp only [UnixPipe.step, hi]
    exact (h.reading phase r (mem_of_getElem? hi)).returns hl i

/-- Every interleaving of reads and writes, and the results joined where no two reads overlap. -/
theorem unix_pipe_reads (buffer : ℕ → UInt8) (es : List UnixPipeEvent) (s : UnixPipe)
    (hr : Machine.runs UnixPipe.step (makeUnixPipe buffer) es = some s) :
    ReadsLines s ∧ (Machine.Guarded UnixPipe.step UnixPipe.Alone (makeUnixPipe buffer) es →
      (s.results.map Reader.got).flatten <+: s.log.accepted) := by
  have h := Machine.invariant UnixPipe.Inv.step es _ s (makeUnixPipe_inv buffer) hr
  refine ⟨h.readsLines, fun hg => ?_⟩
  have hseq := hg.invariant UnixPipe.Sequential.step es _ s ⟨Nat.zero_le _, rfl⟩ hr
  refine List.IsPrefix.trans ?_ h.fifo.in_order
  rw [hseq.delivered, map_append, flatten_append]
  exact prefix_append _ _

def readToEnd : List UnixPipeEvent :=
  [.callWrite [0x61, 0x0A, 0x62], .run 0, .run 0, .run 0, .run 0, .run 0, .run 0, .run 0, .callRead 5, .run 1,
    .run 1, .run 1, .run 1, .callRead 5, .run 2, .run 2, .run 2, .run 2, .closeWrite, .wake 2 true, .run 2,
      .callRead 5, .run 3,
    .callRead 5]

theorem unix_pipe_reads_rest : ∃ s, Machine.runs UnixPipe.step (makeUnixPipe fun _ => 0) readToEnd = some s ∧
    s.results.map Reader.got = [[0x61, 0x0A], [0x62], []] ∧ s.calls[4]? =
      some (.reading .check ⟨5, [], true⟩) ∧
    ReadsLines s ∧ (s.results.map Reader.got).flatten <+: s.log.accepted := by
  have hrun : (Machine.runs UnixPipe.step (makeUnixPipe fun _ => 0) readToEnd).map
      (fun s => (s.results.map Reader.got, s.calls[4]?)) =
        some ([[0x61, 0x0A], [0x62], []], some (.reading .check ⟨5, [], true⟩)) := by decide
  have hg : Machine.Guarded UnixPipe.step UnixPipe.Alone (makeUnixPipe fun _ => 0) readToEnd := by decide
  obtain ⟨s, h, hs⟩ := map_eq_some_iff.mp hrun
  obtain ⟨hresults, hcall⟩ := Prod.mk.inj hs
  obtain ⟨hlines, hjoined⟩ := unix_pipe_reads _ _ s h
  exact ⟨s, h, hresults, hcall, hlines, hjoined hg⟩

/-- Two reads that overlap share the bytes, and in neither order are they what was written. -/
theorem overlapping_reads_mix :
    (Machine.runs UnixPipe.step (makeUnixPipe fun _ => 0)
      [.callWrite [1, 2, 3, 4], .run 0, .run 0, .run 0, .run 0, .run 0, .run 0, .run 0, .run 0, .callRead 2,
        .callRead 2,
        .run 1, .run 1, .run 2, .run 2, .run 1, .run 1, .run 2, .run 2, .run 1, .run 2]).map
        (fun s => (s.results.map Reader.got, s.log.accepted)) = some ([[1, 3], [2, 4]], [1, 2, 3, 4]) ∧
      ∀ rs ∈ [[[1, 3], [2, 4]], [[2, 4], [1, 3]]], ¬ rs.flatten <+: ([1, 2, 3, 4] : List UInt8) := by decide

end ChiffOS.Dev
