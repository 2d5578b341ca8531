import ChiffOS.Dev.Tty

/-! What is typed never makes the master wait. The slave's ring discards what it has no room for, and an
echo is made only where the master's ring has room for two bytes. -/

namespace ChiffOS.Dev

open Circular Option

namespace Pty

/-- The loop of `write_pty_master`, with `l` bytes processed; no result where a ring sleeps. -/
def processBytes : (l : ℕ) → List UInt8 → Pty → Option (ℕ × Pty)
  | l, [], p => some (l, p)
  | l, c :: cs, p => (p.inputProcess c).bind (processBytes (l + 1) cs)

def writePtyMaster (p : Pty) (buffer : List UInt8) : Option (ℕ × Pty) := p.processBytes 0 buffer

/-- What `pty_new` sets up and no call changes. -/
structure Live (p : Pty) : Prop where
  discard : p.inFlags.discard = true
  output : p.output.queue.Valid

theorem live_ptyNew (tios : Termios) (input output canonBuffer : Buf) (fgProc : ℕ) :
    (ptyNew tios input output canonBuffer fgProc).Live :=
  ⟨rfl, empty_valid (show 0 < ttyBufferSize by decide) output⟩

/-! ### The slave's ring -/

theorem ringWriteByte_discard {f : RingFlags} (h : f.discard = true) (l : Log UInt8) (c : UInt8) :
    ∃ l', ringWriteByte f l c = some l' := by
  unfold ringWriteByte
  split_ifs
  · exact ⟨_, rfl⟩
  · exact ⟨l, rfl⟩

theorem putIn_discard (p : Pty) (h : p.inFlags.discard = true) (c : UInt8) : ∃ l, p.putIn c =
    some { p with input := l } := by
  obtain ⟨l, hl⟩ := ringWriteByte_discard h p.input c
  exact ⟨l, by rw [putIn, hl]; rfl⟩

theorem dumpFrom_discard (n : ℕ) : ∀ (i : ℕ) (p : Pty), p.canonBuflen = n → p.inFlags.discard = true →
    ∃ l, p.dumpFrom n i = some { p with input := l, canonBuflen := 0 } := by
  induction n with
  | zero =>
    intro i p hn _
    refine ⟨p.input, ?_⟩
    cases p
    subst hn
    rfl
  | succ n ih =>
    intro i p _ hd
    obtain ⟨l, hl⟩ := p.putIn_discard hd (p.canonBuffer i)
    obtain ⟨l', hl'⟩ := ih (i + 1) { p with input := l, canonBuflen := n } rfl hd
    refine ⟨l', ?_⟩
    rw [dumpFrom, hl]
    exact hl'

variable {p : Pty}

theorem Live.dumpInputBuffer (h : p.Live) : ∃ p', p.dumpInputBuffer = some p' ∧ p'.Live := by
  obtain ⟨l, hl⟩ := p.dumpFrom_discard p.canonBuflen 0 rfl h.discard
  exact ⟨_, hl, h.discard, h.output⟩

/-! ### Calls -/

theorem Live.echoed (h : p.Live) (cs : List UInt8) : ∃ p', p.echoed cs = some p' ∧ p'.Live := by
  obtain ⟨l, hl, hv⟩ := p.echoed_spec cs h.output
  exact ⟨_, hl, h.discard, hv⟩

theorem Live.eraseLast (h : p.Live) : ∃ p', p.eraseLast = some p' ∧ p'.Live := by
  apply Live.echoed
  exact ⟨h.discard, h.output⟩

theorem Live.eraseAll (h : p.Live) : ∃ p', p.eraseAll p.canonBuflen = some p' ∧ p'.Live := by
  obtain ⟨l, b, hl, hv⟩ := p.eraseAll_spec p.canonBuflen rfl h.output
  exact ⟨_, hl, h.discard, hv⟩

theorem Live.interruptLine (h : p.Live) (c : UInt8) (signum : ℕ) : ∃ p', p.interruptLine c signum = some p' ∧
    p'.Live := by
  obtain ⟨q, hq, hl⟩ := h.echoed [0x5E, 0x40 + c, newline]
  unfold Pty.interruptLine
  rw [hq]
  refine ⟨_, rfl, ?_⟩
  split_ifs
  · exact ⟨hl.discard, hl.output⟩
  · exact ⟨hl.discard, hl.output⟩

theorem Live.storeByte (h : p.Live) (c : UInt8) : (p.storeByte c).Live := by
  unfold Pty.storeByte
  split_ifs
  · exact ⟨h.discard, h.output⟩
  · exact h

theorem Live.inputProcess (h : p.Live) (c : UInt8) : ∃ p', p.inputProcess c = some p' ∧ p'.Live := by
  unfold Pty.inputProcess
  split_ifs with hcanon hkill herase hlen hintr hquit heof hlen' hline
  · exact h.eraseAll
  · exact h.eraseLast
  · exact ⟨p, rfl, h⟩
  · exact h.interruptLine c sigint
  · exact h.interruptLine c sigquit
  · exact h.dumpInputBuffer
  · exact ⟨_, rfl, h.discard, h.output⟩
  · obtain ⟨q, hq, hl⟩ := (h.storeByte c).echoed [c]
    rw [hq, bind_some]
    apply Live.dumpInputBuffer
    exact ⟨hl.discard, hl.output⟩
  · obtain ⟨q, hq, hl⟩ := (h.storeByte c).echoed [c]
    rw [hq, bind_some]
    exact ⟨q, rfl, hl⟩
  · obtain ⟨q, hq, hl⟩ := h.echoed [c]
    obtain ⟨l, hput⟩ := q.putIn_discard hl.discard c
    rw [hq, bind_some]
    exact ⟨_, hput, hl.discard, hl.output⟩

theorem Live.processBytes (cs : List UInt8) : ∀ (l : ℕ) (p : Pty), p.Live →
    ∃ p', p.processBytes l cs = some (l + cs.length, p') ∧ p'.Live := by
  induction cs with
  | nil =>
    intro l p h
    exact ⟨p, rfl, h⟩
  | cons c cs ih =>
    intro l p h
    obtain ⟨q, hq, hl⟩ := h.inputProcess c
    obtain ⟨p', hp', hl'⟩ := ih (l + 1) q hl
    refine ⟨p', ?_, hl'⟩
    rw [Pty.processBytes, hq, bind_some, hp', List.length_cons, Nat.add_assoc, Nat.add_comm 1]

theorem putOut_live (h : p.Live) {c : UInt8} {p' : Pty} (hs : p.putOut c = some p') : p'.Live := by
  obtain ⟨l, hl, rfl⟩ := map_eq_some_iff.mp hs
  refine ⟨h.discard, ?_⟩
  unfold ringWriteByte at hl
  split_ifs at hl
  · obtain rfl := some.inj hl
    exact h.output.push c
  · obtain rfl := some.inj hl
    exact h.output

/-- Whatever happens to the terminal. -/
theorem Live.step (p : Pty) (e : TtyEvent) (p' : Pty) (h : p.Live) (hs : p.step e = some p') : p'.Live := by
  cases e with
  | input c =>
    obtain ⟨q, hq, hl⟩ := h.inputProcess c
    obtain rfl := some.inj (hq.symm.trans hs)
    exact hl
  | tcsets t =>
    obtain ⟨q, hq, rfl⟩ := map_eq_some_iff.mp hs
    split_ifs at hq
    · obtain ⟨r, hr, hl⟩ := h.dumpInputBuffer
      obtain rfl := some.inj (hr.symm.trans hq)
      exact ⟨hl.discard, hl.output⟩
    · obtain rfl := some.inj hq
      exact ⟨h.discard, h.output⟩
  | slaveWrite c =>
    simp only [Pty.step, outputProcessSlave] at hs
    split_ifs at hs
    · obtain ⟨q, hq, hs⟩ := bind_eq_some_iff.mp hs
      exact putOut_live (putOut_live h hq) hs
    · exact putOut_live h hs
  | slaveRead =>
    obtain ⟨l, -, rfl⟩ := map_eq_some_iff.mp hs
    exact ⟨h.discard, h.output⟩
  | masterRead =>
    obtain ⟨l, hl, rfl⟩ := map_eq_some_iff.mp hs
    refine ⟨h.discard, ?_⟩
    unfold takeByte at hl
    split_ifs at hl
    obtain rfl := some.inj hl
    exact h.output.pop

end Pty

/-- Whatever has happened to a terminal since `pty_new`, with any settings, all bytes of a write are
processed. -/
theorem pty_master_never_sleeps (tios : Termios) (input output canonBuffer : Buf) (fgProc : ℕ)
    (es : List TtyEvent) (p : Pty)
    (h : Machine.runs Pty.step (ptyNew tios input output canonBuffer fgProc) es = some p)
    (buffer : List UInt8) :
    ∃ p', p.writePtyMaster buffer = some (buffer.length, p') := by
  have hl := Machine.invariant Pty.Live.step es _ p (Pty.live_ptyNew tios input output canonBuffer fgProc) h
  obtain ⟨p', hp', -⟩ := Pty.Live.processBytes buffer 0 p hl
  refine ⟨p', ?_⟩
  rw [Pty.writePtyMaster, hp', Nat.zero_add]

/-- Two bytes are typed on a terminal whose slave has written one. -/
theorem pty_master_never_sleeps_new : ∃ p p', Machine.runs Pty.step
    (ptyNew newTermios (fun _ => 0) (fun _ => 0) (fun _ => 0) 0)
    [.slaveWrite 0x61] = some p ∧ p.writePtyMaster [0x62, newline] = some (2, p') := by
  obtain ⟨p, hp⟩ : ∃ p, Machine.runs Pty.step (ptyNew newTermios (fun _ => 0) (fun _ => 0) (fun _ => 0) 0)
      [.slaveWrite 0x61] = some p := ⟨_, rfl⟩
  obtain ⟨p', hp'⟩ := pty_master_never_sleeps _ _ _ _ _ _ p hp [0x62, newline]
  exact ⟨p, p', hp, hp'⟩

end ChiffOS.Dev
