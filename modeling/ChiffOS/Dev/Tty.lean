import Mathlib
import ChiffOS.Lib.Bytes
import ChiffOS.Dev.RingBuffer

/-! The line discipline of `tty.c`. Input goes through a line buffer in canonical mode, and from there into
the ring buffer that the slave reads. It is compared with a line editor over lists. -/

namespace ChiffOS.Dev

open Circular Function List

def ttyBufferSize : ℕ := 4096

def icanon : ℕ := 0x02
def echo : ℕ := 0x08
def onlcr : ℕ := 0x04

def veof : ℕ := 1
def verase : ℕ := 3
def vintr : ℕ := 4
def vkill : ℕ := 5
def vquit : ℕ := 7

def sigint : ℕ := 2
def sigquit : ℕ := 3

/-- The fields of `struct termios` that the line discipline looks at. -/
structure Termios where
  cOflag : ℕ
  cLflag : ℕ
  cCc : ℕ → UInt8

def Termios.Canonical (t : Termios) : Prop := t.cLflag &&& icanon ≠ 0

instance (t : Termios) : Decidable t.Canonical := by unfold Termios.Canonical; infer_instance

structure Pty where
  tios : Termios
  input : Log UInt8
  inFlags : RingFlags
  output : Log UInt8
  outFlags : RingFlags
  canonBuffer : Buf
  canonBufsize : ℕ
  canonBuflen : ℕ
  fgProc : ℕ
  signals : List (ℕ × ℕ)

def ringWriteByte (f : RingFlags) (l : Log UInt8) (c : UInt8) : Option (Log UInt8) :=
  if l.queue.available > 0 then some ⟨l.queue.push c, l.accepted ++ [c], l.delivered⟩
  else if f.discard then some l
  else none

namespace Pty

def putIn (p : Pty) (c : UInt8) : Option Pty := (ringWriteByte p.inFlags p.input c).map fun l =>
    { p with input := l }

def putOut (p : Pty) (c : UInt8) : Option Pty := (ringWriteByte p.outFlags p.output c).map fun l =>
    { p with output := l }

/-- The loop of `dump_input_buffer`, with `c` at the byte `i`. -/
def dumpFrom : (canonBuflen i : ℕ) → Pty → Option Pty
  | 0, _, p => some p
  | n + 1, i, p => do
    let p ← p.putIn (p.canonBuffer i)
    dumpFrom n (i + 1) { p with canonBuflen := n }

def dumpInputBuffer (p : Pty) : Option Pty := p.dumpFrom p.canonBuflen 0

def clearInputBuffer (p : Pty) : Pty := { p with canonBuflen := 0, canonBuffer := update p.canonBuffer 0 0 }

def outputProcessSlave (p : Pty) (c : UInt8) : Option Pty :=
  if c = newline ∧ p.tios.cOflag &&& onlcr ≠ 0 then (p.putOut 0x0D).bind fun p => p.putOut c else p.putOut c

def outputProcess (p : Pty) (c : UInt8) : Option Pty :=
  if p.output.queue.available < 2 then some p else p.outputProcessSlave c

def echoed (p : Pty) (cs : List UInt8) : Option Pty :=
  if p.tios.cLflag &&& echo ≠ 0 then cs.foldlM outputProcess p else some p

def eraseLast (p : Pty) : Option Pty :=
  echoed { p with
    canonBuflen := p.canonBuflen - 1
    canonBuffer := update p.canonBuffer (p.canonBuflen - 1) 0 } [0x08, 0x20, 0x08]

/-- The loop for `VKILL`. -/
def eraseAll : (canonBuflen : ℕ) → Pty → Option Pty
  | 0, p => some p
  | n + 1, p => p.eraseLast.bind (eraseAll n)

/-- `VINTR` and `VQUIT`. -/
def interruptLine (p : Pty) (c : UInt8) (signum : ℕ) : Option Pty := do
  let p ← p.echoed [0x5E, 0x40 + c, newline]
  let p := p.clearInputBuffer
  some (if p.fgProc ≠ 0 then { p with signals := p.signals ++ [(p.fgProc, signum)] } else p)

def storeByte (p : Pty) (c : UInt8) : Pty :=
  if p.canonBuflen < p.canonBufsize then
    { p with canonBuffer := update p.canonBuffer p.canonBuflen c, canonBuflen := p.canonBuflen + 1 }
  else p

/-- A newline is the last byte of the line, whether there was room or not. -/
def endLine (p : Pty) (c : UInt8) : Option Pty :=
  dumpInputBuffer { p with canonBuffer := update p.canonBuffer (p.canonBuflen - 1) c }

def inputProcess (p : Pty) (c : UInt8) : Option Pty :=
  if p.tios.Canonical then
    if c = p.tios.cCc vkill then p.eraseAll p.canonBuflen
    else if c = p.tios.cCc verase then if p.canonBuflen > 0 then p.eraseLast else some p
    else if c = p.tios.cCc vintr then p.interruptLine c sigint
    else if c = p.tios.cCc vquit then p.interruptLine c sigquit
    else if c = p.tios.cCc veof then
      if p.canonBuflen ≠ 0 then p.dumpInputBuffer
      else some { p with inFlags := ringBuffer.interrupt p.inFlags }
    else ((p.storeByte c).echoed [c]).bind fun p => if c = newline then p.endLine c else some p
  else (p.echoed [c]).bind fun p => p.putIn c

/-- `TCSETS`, `TCSETSW` and `TCSETSF` of `pty_ioctl`. -/
def tcsets (p : Pty) (t : Termios) : Option Pty :=
  (if ¬ t.Canonical ∧ p.tios.Canonical then p.dumpInputBuffer else some p).map fun p => { p with tios := t }

end Pty

/-- What happens to a terminal: a byte of input, new settings, a byte that the slave writes, a byte that
the slave or the master reads. -/
inductive TtyEvent where
  | input (c : UInt8)
  | tcsets (t : Termios)
  | slaveWrite (c : UInt8)
  | slaveRead
  | masterRead

def takeByte (l : Log UInt8) : Option (Log UInt8) :=
  if l.queue.unread > 0 then some ⟨l.queue.pop, l.accepted, l.delivered ++ [l.queue.front]⟩ else none

def Pty.step (p : Pty) : TtyEvent → Option Pty
  | .input c => p.inputProcess c
  | .tcsets t => p.tcsets t
  | .slaveWrite c => p.outputProcessSlave c
  | .slaveRead => (takeByte p.input).map fun l => { p with input := l }
  | .masterRead => (takeByte p.output).map fun l => { p with output := l }

def newTermios : Termios where
  cOflag := 0x05
  cLflag := 0x23B
  cCc := fun i =>
    if i = veof then 4 else if i = verase then 8 else if i = vintr then 3 else if i = vkill then 21
    else if i = vquit then 28 else 0

def ptyNew (tios : Termios) (input output canonBuffer : Buf) (fgProc : ℕ) : Pty where
  tios := tios
  input := ⟨Circular.empty ttyBufferSize input, [], []⟩
  inFlags := ⟨false, true⟩
  output := ⟨Circular.empty ttyBufferSize output, [], []⟩
  outFlags := ⟨false, false⟩
  canonBuffer := canonBuffer
  canonBufsize := ttyBufferSize - 2
  canonBuflen := 0
  fgProc := fgProc
  signals := []

/-! ### The line editor -/

/-- What a byte of input means in canonical mode. -/
inductive Key where
  | newline
  | endOfFile
  | signal
  | erase
  | kill
  | text
deriving DecidableEq

def keyOf (t : Termios) (c : UInt8) : Key :=
  if c = newline then .newline
  else if c = t.cCc veof then .endOfFile
  else if c = t.cCc vintr ∨ c = t.cCc vquit then .signal
  else if c = t.cCc verase then .erase
  else if c = t.cCc vkill then .kill
  else .text

def lineLimit : ℕ := 4094

/-- The settings, the line that is edited and what was released of it. -/
structure Editor where
  tios : Termios
  pending : List UInt8
  released : List UInt8

namespace Editor

def releases (e : Editor) : TtyEvent → List UInt8
  | .input c =>
    if e.tios.Canonical then
      match keyOf e.tios c with
      | .newline => e.pending.take (lineLimit - 1) ++ [newline]
      | .endOfFile => e.pending
      | _ => []
    else [c]
  | .tcsets t => if e.tios.Canonical ∧ ¬ t.Canonical then e.pending else []
  | _ => []

def edited (e : Editor) : TtyEvent → List UInt8
  | .input c =>
    if e.tios.Canonical then
      match keyOf e.tios c with
      | .erase => e.pending.dropLast
      | .text => if e.pending.length < lineLimit then e.pending ++ [c] else e.pending
      | _ => []
    else e.pending
  | .tcsets t => if e.tios.Canonical ∧ ¬ t.Canonical then [] else e.pending
  | _ => e.pending

def step (e : Editor) (ev : TtyEvent) : Editor where
  tios := match ev with
    | .tcsets t => t
    | _ => e.tios
  pending := e.edited ev
  released := e.released ++ e.releases ev

end Editor

namespace Pty

def pending (p : Pty) : List UInt8 := (List.range p.canonBuflen).map p.canonBuffer

def view (p : Pty) : Editor := ⟨p.tios, p.pending, p.input.accepted⟩

end Pty

def Termios.Distinct (t : Termios) : Prop :=
  [newline, t.cCc veof, t.cCc vintr, t.cCc vquit, t.cCc verase, t.cCc vkill].Nodup

instance (t : Termios) : Decidable t.Distinct := by unfold Termios.Distinct; infer_instance

/-- The slave's buffer has room for what is released, and settings have different control characters. -/
structure Accommodates (p : Pty) (ev : TtyEvent) : Prop where
  room : (p.view.releases ev).length ≤ p.input.queue.available
  distinct : ∀ t, ev = .tcsets t → t.Distinct

/-! ### Control characters -/

namespace Termios.Distinct

variable {t : Termios} (h : t.Distinct)
include h

theorem keyOf_kill : keyOf t (t.cCc vkill) = .kill := by
  simp only [Termios.Distinct, nodup_cons, mem_cons, not_or, not_mem_nil, not_false_eq_true, and_true] at h
  obtain ⟨⟨-, -, -, -, h1⟩, ⟨-, -, -, h2⟩, ⟨-, -, h3⟩, ⟨-, h4⟩, h5, -⟩ := h
  simp [keyOf, Ne.symm h1, Ne.symm h2, Ne.symm h3, Ne.symm h4, Ne.symm h5]

theorem keyOf_erase : keyOf t (t.cCc verase) = .erase := by
  simp only [Termios.Distinct, nodup_cons, mem_cons, not_or, not_mem_nil, not_false_eq_true, and_true] at h
  obtain ⟨⟨-, -, -, h1, -⟩, ⟨-, -, h2, -⟩, ⟨-, h3, -⟩, ⟨h4, -⟩, -⟩ := h
  simp [keyOf, Ne.symm h1, Ne.symm h2, Ne.symm h3, Ne.symm h4]

theorem keyOf_intr : keyOf t (t.cCc vintr) = .signal := by
  simp only [Termios.Distinct, nodup_cons, mem_cons, not_or, not_mem_nil, not_false_eq_true, and_true] at h
  obtain ⟨⟨-, h1, -⟩, ⟨h2, -⟩, -⟩ := h
  simp [keyOf, Ne.symm h1, Ne.symm h2]

theorem keyOf_quit : keyOf t (t.cCc vquit) = .signal := by
  simp only [Termios.Distinct, nodup_cons, mem_cons, not_or, not_mem_nil, not_false_eq_true, and_true] at h
  obtain ⟨⟨-, -, h1, -⟩, ⟨-, h2, -⟩, -⟩ := h
  simp [keyOf, Ne.symm h1, Ne.symm h2]

theorem keyOf_eof : keyOf t (t.cCc veof) = .endOfFile := by
  simp only [Termios.Distinct, nodup_cons, mem_cons, not_or, not_mem_nil, not_false_eq_true, and_true] at h
  obtain ⟨⟨h1, -⟩, -⟩ := h
  simp [keyOf, Ne.symm h1]

end Termios.Distinct

/-! ### The rings -/

theorem ringWriteByte_room (f : RingFlags) {l : Log UInt8} (h : 0 < l.queue.available) (c : UInt8) :
    ringWriteByte f l c = some ⟨l.queue.push c, l.accepted ++ [c], l.delivered⟩ := if_pos h

theorem available_push {q : Circular UInt8} (hv : q.Valid) (ha : 0 < q.available) (c : UInt8) :
    (q.push c).available + 1 = q.available := by
  have h1 := hv.unread_add_available
  have h2 := (hv.push c).unread_add_available
  have h3 := hv.unread_push ha c
  have h4 : (q.push c).size = q.size := rfl
  omega

namespace Pty

theorem outputProcess_spec (p : Pty) (hv : p.output.queue.Valid) (c : UInt8) :
    ∃ l, p.outputProcess c = some { p with output := l } ∧ l.queue.Valid := by
  unfold outputProcess
  split_ifs with hfull
  · exact ⟨p.output, rfl, hv⟩
  · have ha : 0 < p.output.queue.available := by omega
    unfold outputProcessSlave putOut
    split_ifs
    · rw [ringWriteByte_room _ ha]
      have hroom := available_push hv ha 0x0D
      have ha' : 0 < (p.output.queue.push 0x0D).available := by omega
      refine ⟨⟨(p.output.queue.push 0x0D).push c, p.output.accepted ++ [0x0D] ++ [c], p.output.delivered⟩, ?_,
        (hv.push 0x0D).push c⟩
      simp only [Option.map_some, Option.bind_some]
      rw [ringWriteByte_room _ ha']
      rfl
    · rw [ringWriteByte_room _ ha]
      exact ⟨_, rfl, hv.push c⟩

theorem foldlM_outputProcess (cs : List UInt8) : ∀ p : Pty, p.output.queue.Valid →
    ∃ l, cs.foldlM outputProcess p = some { p with output := l } ∧ l.queue.Valid := by
  induction cs with
  | nil => exact fun p hv => ⟨p.output, rfl, hv⟩
  | cons c cs ih =>
    intro p hv
    obtain ⟨l, hl, hlv⟩ := p.outputProcess_spec hv c
    obtain ⟨l', hl', hlv'⟩ := ih { p with output := l } hlv
    refine ⟨l', ?_, hlv'⟩
    rw [foldlM_cons, hl]
    exact hl'

theorem echoed_spec (cs : List UInt8) (p : Pty) (hv : p.output.queue.Valid) :
    ∃ l, p.echoed cs = some { p with output := l } ∧ l.queue.Valid := by
  unfold echoed
  split_ifs
  · exact foldlM_outputProcess cs p hv
  · exact ⟨p.output, rfl, hv⟩

theorem dumpFrom_spec : ∀ (n i : ℕ) (p : Pty), p.canonBuflen = n → p.input.Fifo →
    n ≤ p.input.queue.available →
    ∃ l, p.dumpFrom n i = some { p with input := l, canonBuflen := 0 } ∧ l.Fifo ∧
      l.accepted = p.input.accepted ++ (List.range n).map fun k => p.canonBuffer (i + k) := by
  intro n
  induction n with
  | zero =>
    intro i p hn hf _
    refine ⟨p.input, ?_, hf, by simp⟩
    cases p
    subst hn
    rfl
  | succ n ih =>
    intro i p _ hf ha
    have hroom := available_push hf.valid (by omega) (p.canonBuffer i)
    obtain ⟨l, hl, hlf, hacc⟩ := ih (i + 1)
      { p with
        input := ⟨p.input.queue.push (p.canonBuffer i), p.input.accepted ++ [p.canonBuffer i],
          p.input.delivered⟩
        canonBuflen := n } rfl (hf.step (.accept p.input _ (by omega))) (by dsimp only; omega)
    refine ⟨l, ?_, hlf, ?_⟩
    · rw [dumpFrom, putIn, ringWriteByte_room _ (by omega)]
      exact hl
    · rw [hacc, range_succ_eq_map, map_cons, map_map, append_assoc, singleton_append]
      congr 2
      refine map_congr_left fun k _ => ?_
      simp only [comp_apply]
      congr 1
      omega

theorem dumpInputBuffer_spec (p : Pty) (hf : p.input.Fifo) (ha : p.canonBuflen ≤ p.input.queue.available) :
    ∃ l, p.dumpInputBuffer = some { p with input := l, canonBuflen := 0 } ∧ l.Fifo ∧
      l.accepted = p.input.accepted ++ p.pending := by
  obtain ⟨l, hl, hlf, hacc⟩ := p.dumpFrom_spec p.canonBuflen 0 rfl hf ha
  refine ⟨l, hl, hlf, ?_⟩
  simpa [pending] using hacc

/-! ### The line buffer -/

theorem pending_length (p : Pty) : p.pending.length = p.canonBuflen := by simp [pending]

/-- What stands behind the line does not matter. -/
theorem map_range_update {b : Buf} {n i : ℕ} (h : n ≤ i) (c : UInt8) :
    (List.range n).map (update b i c) = (List.range n).map b := by
  refine map_congr_left fun k hk => ?_
  rw [mem_range] at hk
  exact update_of_ne (by omega) _ _

theorem map_range_dropLast (b : Buf) (n : ℕ) : ((List.range n).map b).dropLast =
    (List.range (n - 1)).map b := by
  cases n with
  | zero => rfl
  | succ n => rw [range_succ, map_append, map_singleton, dropLast_concat, Nat.add_sub_cancel]

/-- One more byte in the line. -/
theorem map_range_push (b : Buf) (n : ℕ) (c : UInt8) :
    (List.range (n + 1)).map (update b n c) = (List.range n).map b ++ [c] := by
  rw [range_succ, map_append, map_range_update le_rfl, map_singleton, update_self]

/-- The newline takes the place of the last byte. -/
theorem pending_endLine (q : Pty) (hpos : 0 < q.canonBuflen) (c : UInt8) :
    pending { q with canonBuffer := update q.canonBuffer (q.canonBuflen - 1) c } =
      q.pending.dropLast ++ [c] := by
  unfold pending
  rw [map_range_dropLast]
  dsimp only
  obtain ⟨n, hn⟩ := Nat.exists_eq_succ_of_ne_zero hpos.ne'
  rw [hn, Nat.succ_sub_one, map_range_push]

theorem eraseAll_spec : ∀ (n : ℕ) (p : Pty), p.canonBuflen = n → p.output.queue.Valid →
    ∃ l b, p.eraseAll n = some { p with output := l, canonBuflen := 0, canonBuffer := b } ∧
      l.queue.Valid := by
  intro n
  induction n with
  | zero =>
    intro p hn hv
    refine ⟨p.output, p.canonBuffer, ?_, hv⟩
    cases p
    subst hn
    rfl
  | succ n ih =>
    intro p hn hv
    obtain ⟨l, hl, hlv⟩ := echoed_spec [0x08, 0x20, 0x08]
      { p with canonBuflen := p.canonBuflen - 1, canonBuffer := update p.canonBuffer (p.canonBuflen - 1) 0 }
        hv
    obtain ⟨l', b, hl', hlv'⟩ := ih
      { p with
        output := l, canonBuflen := p.canonBuflen - 1
        canonBuffer := update p.canonBuffer (p.canonBuflen - 1) 0 } (by dsimp only; omega) hlv
    refine ⟨l', b, ?_, hlv'⟩
    rw [eraseAll, eraseLast, hl]
    exact hl'

/-! ### The terminal is the editor -/

structure Ready (p : Pty) : Prop where
  fifo : p.input.Fifo
  output : p.output.queue.Valid
  bufsize : p.canonBufsize = lineLimit
  buflen : p.canonBuflen ≤ lineLimit
  distinct : p.tios.Distinct

variable {p : Pty} (h : p.Ready)
include h

variable {c : UInt8}

theorem Ready.eraseLast (hc : p.tios.Canonical) (hkey : keyOf p.tios c = .erase) :
    ∃ p', p.eraseLast = some p' ∧ p'.Ready ∧ p'.view = p.view.step (.input c) := by
  obtain ⟨l, hl, hlv⟩ := echoed_spec [0x08, 0x20, 0x08]
    { p with canonBuflen := p.canonBuflen - 1, canonBuffer := update p.canonBuffer (p.canonBuflen - 1) 0 }
      h.output
  refine ⟨_, hl, ⟨h.fifo, hlv, h.bufsize, (Nat.sub_le _ _).trans h.buflen, h.distinct⟩, ?_⟩
  have hv : p.view.tios = p.tios := rfl
  simp only [Editor.step, Editor.edited, Editor.releases, hv, if_pos hc, hkey, append_nil]
  unfold view
  dsimp only [pending]
  rw [map_range_update le_rfl, map_range_dropLast]

theorem Ready.kill (hc : p.tios.Canonical) (hkey : keyOf p.tios c = .kill) :
    ∃ p', p.eraseAll p.canonBuflen = some p' ∧ p'.Ready ∧ p'.view = p.view.step (.input c) := by
  obtain ⟨l, b, hl, hlv⟩ := p.eraseAll_spec p.canonBuflen rfl h.output
  refine ⟨_, hl, ⟨h.fifo, hlv, h.bufsize, Nat.zero_le _, h.distinct⟩, ?_⟩
  have hv : p.view.tios = p.tios := rfl
  simp only [Editor.step, Editor.edited, Editor.releases, hv, if_pos hc, hkey, append_nil]
  rfl

theorem Ready.interruptLine (signum : ℕ) (hc : p.tios.Canonical) (hkey : keyOf p.tios c = .signal) :
    ∃ p', p.interruptLine c signum = some p' ∧ p'.Ready ∧ p'.view = p.view.step (.input c) := by
  obtain ⟨l, hl, hlv⟩ := echoed_spec [0x5E, 0x40 + c, newline] p h.output
  have hv : p.view.tios = p.tios := rfl
  unfold Pty.interruptLine
  rw [hl]
  refine ⟨_, rfl, ?_, ?_⟩
  · split_ifs <;> exact ⟨h.fifo, hlv, h.bufsize, Nat.zero_le _, h.distinct⟩
  · simp only [Editor.step, Editor.edited, Editor.releases, hv, if_pos hc, hkey, append_nil]
    split_ifs <;> rfl

/-- The line so far is released, or the slave's read is interrupted. -/
theorem Ready.endOfFile (hc : p.tios.Canonical) (hkey : keyOf p.tios c = .endOfFile)
    (hroom : (p.view.releases (.input c)).length ≤ p.input.queue.available) :
    ∃ p', (if p.canonBuflen ≠ 0 then p.dumpInputBuffer
        else some { p with inFlags := ringBuffer.interrupt p.inFlags }) = some p' ∧
      p'.Ready ∧ p'.view = p.view.step (.input c) := by
  have hv : p.view.tios = p.tios := rfl
  have hp : p.view.pending = p.pending := rfl
  simp only [Editor.releases, hv, if_pos hc, hkey, hp, pending_length] at hroom
  simp only [Editor.step, Editor.edited, Editor.releases, hv, if_pos hc, hkey, hp]
  by_cases hn : p.canonBuflen ≠ 0
  · rw [if_pos hn]
    obtain ⟨l, hl, hlf, hacc⟩ := p.dumpInputBuffer_spec h.fifo hroom
    refine ⟨_, hl, ⟨hlf, h.output, h.bufsize, Nat.zero_le _, h.distinct⟩, ?_⟩
    unfold view
    dsimp only
    rw [hacc]
    rfl
  · rw [if_neg hn]
    refine ⟨_, rfl, ⟨h.fifo, h.output, h.bufsize, h.buflen, h.distinct⟩, ?_⟩
    have hnil : p.pending = [] := eq_nil_of_length_eq_zero (by rw [pending_length]; omega)
    rw [hnil, append_nil]
    exact congrArg (fun pending => (⟨p.tios, pending, p.input.accepted⟩ : Editor)) hnil

theorem Ready.storeByte (c : UInt8) : (p.storeByte c).Ready ∧ (p.storeByte c).tios = p.tios ∧
    (p.storeByte c).input = p.input ∧ 0 < (p.storeByte c).canonBuflen ∧
    (p.storeByte c).pending = if p.pending.length < lineLimit then p.pending ++ [c] else p.pending := by
  unfold Pty.storeByte
  rw [h.bufsize, pending_length]
  by_cases hn : p.canonBuflen < lineLimit
  · rw [if_pos hn, if_pos hn]
    exact ⟨⟨h.fifo, h.output, rfl, hn, h.distinct⟩, rfl, rfl, Nat.succ_pos _, map_range_push _ _ _⟩
  · rw [if_neg hn, if_neg hn]
    have hpos : 0 < lineLimit := by decide
    exact ⟨h, rfl, rfl, by omega, rfl⟩

theorem Ready.text (hc : p.tios.Canonical) (hkey : keyOf p.tios c = .text) :
    ∃ p', (p.storeByte c).echoed [c] = some p' ∧ p'.Ready ∧ p'.view = p.view.step (.input c) := by
  have hv : p.view.tios = p.tios := rfl
  have hp : p.view.pending = p.pending := rfl
  obtain ⟨hready, htios, hinput, -, hpending⟩ := h.storeByte c
  obtain ⟨l, hl, hlv⟩ := echoed_spec [c] (p.storeByte c) hready.output
  refine ⟨_, hl, ⟨hready.fifo, hlv, hready.bufsize, hready.buflen, hready.distinct⟩, ?_⟩
  simp only [Editor.step, Editor.edited, Editor.releases, hv, if_pos hc, hkey, hp, append_nil]
  rw [← hpending]
  unfold view
  rw [← hinput, ← htios]
  rfl

theorem Ready.lineEnd (hc : p.tios.Canonical)
    (hroom : (p.view.releases (.input newline)).length ≤ p.input.queue.available) :
    ∃ p', (((p.storeByte newline).echoed [newline]).bind fun p => p.endLine newline) = some p' ∧ p'.Ready ∧
      p'.view = p.view.step (.input newline) := by
  have hkey : keyOf p.tios newline = .newline := if_pos rfl
  have hv : p.view.tios = p.tios := rfl
  have hp : p.view.pending = p.pending := rfl
  obtain ⟨hready, htios, hinput, hpos, hpending⟩ := h.storeByte newline
  obtain ⟨l, hl, hlv⟩ := echoed_spec [newline] (p.storeByte newline) hready.output
  have hline : (p.storeByte newline).pending.dropLast = p.pending.take (lineLimit - 1) := by
    have hle := h.buflen
    rw [hpending]
    split_ifs with hn
    · rw [dropLast_concat, take_of_length_le (by omega)]
    · rw [dropLast_eq_take]
      rw [pending_length] at hn ⊢
      congr 1
      omega
  have hreleased := pending_endLine { p.storeByte newline with output := l } hpos newline
  change _ = (p.storeByte newline).pending.dropLast ++ _ at hreleased
  rw [hline] at hreleased
  simp only [Editor.releases, hv, if_pos hc, hkey, hp, ← hreleased, pending_length] at hroom
  obtain ⟨l', hl', hlf', hacc⟩ := dumpInputBuffer_spec
    { p.storeByte newline with
      output := l
      canonBuffer := update (p.storeByte newline).canonBuffer ((p.storeByte newline).canonBuflen - 1) newline
        }
    hready.fifo (hinput ▸ hroom)
  rw [hl]
  refine ⟨_, hl', ⟨hlf', hlv, hready.bufsize, Nat.zero_le _, hready.distinct⟩, ?_⟩
  simp only [Editor.step, Editor.edited, Editor.releases, hv, if_pos hc, hkey, hp, ← hreleased]
  unfold view
  dsimp only
  rw [hacc, ← htios, ← hinput]
  rfl

theorem Ready.raw (hc : ¬ p.tios.Canonical)
    (hroom : (p.view.releases (.input c)).length ≤ p.input.queue.available) :
    ∃ p', ((p.echoed [c]).bind fun p => p.putIn c) = some p' ∧ p'.Ready ∧ p'.view =
      p.view.step (.input c) := by
  have hv : p.view.tios = p.tios := rfl
  obtain ⟨l, hl, hlv⟩ := echoed_spec [c] p h.output
  simp only [Editor.releases, hv, if_neg hc, length_singleton] at hroom
  rw [hl, Option.bind_some, putIn, ringWriteByte_room _ hroom]
  refine ⟨_, rfl, ⟨h.fifo.step (.accept p.input c hroom), hlv, h.bufsize, h.buflen, h.distinct⟩, ?_⟩
  simp only [Editor.step, Editor.edited, Editor.releases, hv, if_neg hc]
  rfl

theorem Ready.inputProcess (hroom : (p.view.releases (.input c)).length ≤ p.input.queue.available) :
    ∃ p', p.inputProcess c = some p' ∧ p'.Ready ∧ p'.view = p.view.step (.input c) := by
  unfold Pty.inputProcess
  by_cases hc : p.tios.Canonical
  · rw [if_pos hc]
    split_ifs with hkill herase hlen hintr hquit heof hempty hnl
    · exact h.kill hc (hkill ▸ h.distinct.keyOf_kill)
    · exact h.eraseLast hc (herase ▸ h.distinct.keyOf_erase)
    · have hnil : p.pending = [] := eq_nil_of_length_eq_zero (by rw [pending_length]; omega)
      have hkey : keyOf p.tios c = .erase := herase ▸ h.distinct.keyOf_erase
      refine ⟨p, rfl, h, ?_⟩
      simp only [Editor.step, Editor.edited, Editor.releases, view, if_pos hc, hkey, hnil, append_nil,
        dropLast_nil]
    · exact h.interruptLine sigint hc (hintr ▸ h.distinct.keyOf_intr)
    · exact h.interruptLine sigquit hc (hquit ▸ h.distinct.keyOf_quit)
    · have hend := h.endOfFile hc (heof ▸ h.distinct.keyOf_eof) hroom
      rwa [if_pos hempty] at hend
    · have hend := h.endOfFile hc (heof ▸ h.distinct.keyOf_eof) hroom
      rwa [if_neg hempty] at hend
    · subst hnl
      exact h.lineEnd hc hroom
    · have hkey : keyOf p.tios c = .text := by simp [keyOf, *]
      obtain ⟨p', hp', hready, hview⟩ := h.text hc hkey
      refine ⟨p', ?_, hready, hview⟩
      rw [hp', Option.bind_some]
  · rw [if_neg hc]
    exact h.raw hc hroom

/-- Settings that leave canonical mode release the line. -/
theorem Ready.tcsets {t : Termios} (ht : t.Distinct)
    (hroom : (p.view.releases (.tcsets t)).length ≤ p.input.queue.available) :
    ∃ p', p.tcsets t = some p' ∧ p'.Ready ∧ p'.view = p.view.step (.tcsets t) := by
  have hv : p.view.tios = p.tios := rfl
  have hp : p.view.pending = p.pending := rfl
  unfold Pty.tcsets
  by_cases hout : ¬ t.Canonical ∧ p.tios.Canonical
  · simp only [Editor.releases, hv, if_pos hout.symm, hp, pending_length] at hroom
    obtain ⟨l, hl, hlf, hacc⟩ := p.dumpInputBuffer_spec h.fifo hroom
    rw [if_pos hout, hl]
    refine ⟨_, rfl, ⟨hlf, h.output, h.bufsize, Nat.zero_le _, ht⟩, ?_⟩
    simp only [Editor.step, Editor.edited, Editor.releases, hv, if_pos hout.symm, hp]
    unfold view
    dsimp only
    rw [hacc]
    rfl
  · rw [if_neg hout]
    refine ⟨_, rfl, ⟨h.fifo, h.output, h.bufsize, h.buflen, ht⟩, ?_⟩
    simp only [Editor.step, Editor.edited, Editor.releases, hv, if_neg fun hc => hout (And.symm hc),
      append_nil]
    rfl

omit h in
theorem putOut_cases {q q' : Pty} (hv : q.output.queue.Valid) (hs : q.putOut c = some q') :
    ∃ l, q' = { q with output := l } ∧ l.queue.Valid := by
  obtain ⟨l, hl, rfl⟩ := Option.map_eq_some_iff.mp hs
  refine ⟨l, rfl, ?_⟩
  unfold ringWriteByte at hl
  split_ifs at hl with ha hd
  · obtain rfl := Option.some.inj hl
    exact hv.push c
  · obtain rfl := Option.some.inj hl
    exact hv

omit h in
theorem outputProcessSlave_cases {q q' : Pty} (hv : q.output.queue.Valid)
    (hs : q.outputProcessSlave c = some q') : ∃ l, q' = { q with output := l } ∧ l.queue.Valid := by
  unfold outputProcessSlave at hs
  split_ifs at hs
  · obtain ⟨q₁, h1, h2⟩ := Option.bind_eq_some_iff.mp hs
    obtain ⟨l₁, rfl, hv₁⟩ := putOut_cases hv h1
    obtain ⟨l₂, rfl, hv₂⟩ := putOut_cases hv₁ h2
    exact ⟨l₂, rfl, hv₂⟩
  · exact putOut_cases hv hs

omit h in
theorem takeByte_step {l l' : Log UInt8} (hs : takeByte l = some l') : l.Step l' ∧ l'.accepted =
    l.accepted := by
  unfold takeByte at hs
  split_ifs at hs with hu
  obtain rfl := Option.some.inj hs
  exact ⟨.deliver l hu, rfl⟩

theorem Ready.step {ev : TtyEvent} {p' : Pty} (ha : Accommodates p ev) (hs : p.step ev = some p') :
    p'.Ready ∧ p'.view = p.view.step ev := by
  cases ev with
  | input c =>
    obtain ⟨p₁, h1, hready, hview⟩ := h.inputProcess ha.room
    obtain rfl := Option.some.inj (h1.symm.trans hs)
    exact ⟨hready, hview⟩
  | tcsets t =>
    obtain ⟨p₁, h1, hready, hview⟩ := h.tcsets (ha.distinct t rfl) ha.room
    obtain rfl := Option.some.inj (h1.symm.trans hs)
    exact ⟨hready, hview⟩
  | slaveWrite c =>
    obtain ⟨l, rfl, hl⟩ := outputProcessSlave_cases h.output hs
    exact ⟨⟨h.fifo, hl, h.bufsize, h.buflen,
      h.distinct⟩, by simp [Editor.step, Editor.edited, Editor.releases, view, pending]⟩
  | slaveRead =>
    obtain ⟨l, hl, rfl⟩ := Option.map_eq_some_iff.mp hs
    obtain ⟨hstep, hacc⟩ := takeByte_step hl
    exact ⟨⟨h.fifo.step hstep, h.output, h.bufsize, h.buflen, h.distinct⟩,
      by simp [Editor.step, Editor.edited, Editor.releases, view, pending, hacc]⟩
  | masterRead =>
    obtain ⟨l, hl, rfl⟩ := Option.map_eq_some_iff.mp hs
    obtain ⟨hstep, -⟩ := takeByte_step hl
    exact ⟨⟨h.fifo, hstep.valid h.output, h.bufsize, h.buflen, h.distinct⟩,
      by simp [Editor.step, Editor.edited, Editor.releases, view, pending]⟩

omit h in
theorem ready_ptyNew {tios : Termios} (ht : tios.Distinct) (input output canonBuffer : Buf) (fgProc : ℕ) :
    (ptyNew tios input output canonBuffer fgProc).Ready where
  fifo := ⟨empty_valid (by decide) input, rfl⟩
  output := empty_valid (by decide) output
  bufsize := rfl
  buflen := Nat.zero_le _
  distinct := ht

end Pty

/-- What a terminal released to its slave is what the line editor released, in every state of every run in
which the slave's buffer has room for it; and with that room no input waits. -/
theorem line_discipline_edits (tios : Termios) (ht : tios.Distinct) (input output canonBuffer : Buf)
    (fgProc : ℕ)
    (es : List TtyEvent) (p : Pty)
    (hroom : Machine.Guarded Pty.step Accommodates (ptyNew tios input output canonBuffer fgProc) es)
    (hrun : Machine.runs Pty.step (ptyNew tios input output canonBuffer fgProc) es = some p) :
    p.view = es.foldl Editor.step ⟨tios, [], []⟩ ∧ p.input.delivered <+: p.input.accepted ∧
      (∀ c, Accommodates p (.input c) → (p.step (.input c)).isSome) ∧
      ∀ t, Accommodates p (.tcsets t) → (p.step (.tcsets t)).isSome := by
  obtain ⟨hready, hview⟩ := Machine.Guarded.simulates (fun s e s' hi he hs => Pty.Ready.step hi he hs) es _ p
    (Pty.ready_ptyNew ht input output canonBuffer fgProc) hroom hrun
  refine ⟨hview, hready.fifo.in_order, ?_, ?_⟩
  · intro c ha
    obtain ⟨p', hp', -⟩ := hready.inputProcess ha.room
    exact Option.isSome_iff_exists.mpr ⟨p', hp'⟩
  · intro t ha
    obtain ⟨p', hp', -⟩ := hready.tcsets (ha.distinct t rfl) ha.room
    exact Option.isSome_iff_exists.mpr ⟨p', hp'⟩

theorem line_discipline_edits_erase : ∃ p,
    Machine.runs Pty.step (ptyNew newTermios 0 0 0 0) [.input 0x61, .input 0x08, .input 0x62,
      .input newline] = some p ∧
      p.input.accepted = [0x62, newline] ∧
      p.view = [TtyEvent.input 0x61, .input 0x08, .input 0x62, .input newline].foldl Editor.step ⟨newTermios,
        [], []⟩ := by
  have hroom : Machine.Guarded Pty.step Accommodates (ptyNew newTermios 0 0 0 0)
      [.input 0x61, .input 0x08, .input 0x62, .input newline] := by
    refine ⟨⟨by decide, nofun⟩, fun p₁ h1 => ?_⟩
    obtain rfl := Option.some.inj h1
    refine ⟨⟨by decide, nofun⟩, fun p₂ h2 => ?_⟩
    obtain rfl := Option.some.inj h2
    refine ⟨⟨by decide, nofun⟩, fun p₃ h3 => ?_⟩
    obtain rfl := Option.some.inj h3
    exact ⟨⟨by decide, nofun⟩, fun _ _ => trivial⟩
  have hrun : (Machine.runs Pty.step (ptyNew newTermios 0 0 0 0)
      [.input 0x61, .input 0x08, .input 0x62, .input newline]).map (fun p => p.input.accepted) =
        some [0x62, newline] := by
    decide
  obtain ⟨p, hp, hacc⟩ := Option.map_eq_some_iff.mp hrun
  exact ⟨p, hp, hacc, (line_discipline_edits newTermios (by decide) 0 0 0 0 _ p hroom hp).1⟩

end ChiffOS.Dev
