import ChiffOS.Dev.Tty

/-! Reads of a terminal that do not want to wait. `ring_buffer_read` sleeps until it has collected
something, whatever the size that it was asked for, and `read_pty_slave` passes it the size zero where
nothing is unread. -/

namespace ChiffOS.Dev

open Circular Function

def vmin : ℕ := 6

/-- A size of 32 bits where it is taken for signed: a negative one is as good as zero for a loop that counts
up to it. -/
def signedSize (size : ℕ) : ℕ := if size < 2 ^ 31 then size else 0

def Pty.readPtySlaveSize (p : Pty) (size : ℕ) : ℕ :=
  signedSize (if p.tios.Canonical then size
    else if p.tios.cCc vmin = 0 then min size p.input.queue.unread
    else min (p.tios.cCc vmin).toNat size)

/-- A call that nothing disturbs returns what is unread, as far as it has room, and does not sleep on its
way. -/
def ReadsAtOnce (s : Channel RingFlags) (t size : ℕ) : Prop :=
  ∃ k s', Machine.runs ringBuffer.step s (.callRead t size :: List.replicate k (.run t)) = some s' ∧
    s'.tasks t = .idle ∧
    s'.log.delivered = s.log.delivered ++ s.log.queue.contents.take size

variable {s : Channel RingFlags} {t size : ℕ}

theorem step_callRead (hidle : s.tasks t = .idle) :
    ringBuffer.step s (.callRead t size) =
      some { s with tasks := update s.tasks t (.running (.read size [])) } := by
  simp only [Driver.step, hidle]
  rfl

theorem step_sleeps (hrun : s.tasks t = .running (.read size []))
    (hnone : ¬ (0 < s.log.queue.unread ∧ 0 < size)) :
    ringBuffer.step s (.run t) = some { s with tasks := update s.tasks t (.asleep (.read size [])) } := by
  have hmove : moveByte s.log (.read size []) = none := if_neg hnone
  simp only [Driver.step, hrun, hmove]
  rfl

theorem step_returns {b : UInt8} {bs : List UInt8} (hrun : s.tasks t = .running (.read size (b :: bs)))
    (hnone : ¬ (s.log.queue.unread > 0 ∧ (b :: bs).length < size)) :
    ringBuffer.step s (.run t) = some { s with tasks := update s.tasks t .idle } := by
  have hmove : moveByte s.log (.read size (b :: bs)) = none := if_neg hnone
  simp only [Driver.step, hrun, hmove]
  rfl

theorem step_moves {bs : List UInt8} (hrun : s.tasks t = .running (.read size bs))
    (hsome : s.log.queue.unread > 0 ∧ bs.length < size) :
    ringBuffer.step s (.run t) =
      some ⟨⟨s.log.queue.pop, s.log.accepted, s.log.delivered ++ [s.log.queue.front]⟩, s.flags,
      update s.tasks t (.running (.read size (bs ++ [s.log.queue.front])))⟩ := by
  have hmove : moveByte s.log (.read size bs)
      = some (⟨s.log.queue.pop, s.log.accepted, s.log.delivered ++ [s.log.queue.front]⟩,
        .read size (bs ++ [s.log.queue.front])) :=
    if_pos hsome
  simp only [Driver.step, hrun, hmove]

/-- A call that has collected something, or that can, returns after the bytes that are left. -/
theorem collects (n : ℕ) (s : Channel RingFlags) (bs : List UInt8) (hv : s.log.queue.Valid)
    (hrun : s.tasks t = .running (.read size bs)) (hn : n = min (size - bs.length) s.log.queue.unread)
      (hsome : bs ≠ [] ∨ 0 < n) :
    ∃ s', Machine.runs ringBuffer.step s (List.replicate (n + 1) (.run t)) = some s' ∧ s'.tasks t = .idle ∧
      s'.log.delivered = s.log.delivered ++ s.log.queue.contents.take n := by
  induction n generalizing s bs with
  | zero =>
    cases bs with
    | nil => simp at hsome
    | cons b bs =>
      have hstep := step_returns hrun (by omega)
      refine ⟨{ s with tasks := update s.tasks t .idle }, ?_, update_self .., ?_⟩
      · simp only [List.replicate_succ, List.replicate_zero, Machine.runs, hstep, Option.bind_some]
      · rw [List.take_zero, List.append_nil]
  | succ n ih =>
    have hu : 0 < s.log.queue.unread := by omega
    have hstep := step_moves hrun ⟨hu, by omega⟩
    have hpop := hv.unread_pop hu
    have hleft : n = min (size - (bs ++ [s.log.queue.front]).length) s.log.queue.pop.unread := by
      rw [List.length_append, List.length_singleton]
      omega
    obtain ⟨s', hruns, hidle, hdel⟩ :=
      ih ⟨⟨s.log.queue.pop, s.log.accepted, s.log.delivered ++ [s.log.queue.front]⟩, s.flags,
      update s.tasks t (.running (.read size (bs ++ [s.log.queue.front])))⟩ (bs ++ [s.log.queue.front]) hv.pop
        (update_self ..)
      hleft (.inl (by simp))
    refine ⟨s', ?_, hidle, ?_⟩
    · rw [List.replicate_succ, Machine.runs, hstep, Option.bind_some]
      exact hruns
    · rw [hdel, hv.contents_pop hu, List.take_succ_cons, List.append_assoc]
      rfl

theorem asleep_stays {c : Call} (h : s.tasks t = .asleep c) {k : ℕ} {s' : Channel RingFlags}
    (hruns : Machine.runs ringBuffer.step s (List.replicate k (.run t)) = some s') : s'.tasks t =
      .asleep c := by
  cases k with
  | zero =>
    obtain rfl := Option.some.inj hruns
    exact h
  | succ k =>
    obtain ⟨s₁, hstep, -⟩ := Machine.runs_cons hruns
    simp [Driver.step, h] at hstep

/-- A call that returns at once asks for something and finds something. -/
theorem ReadsAtOnce.pos (hidle : s.tasks t = .idle) (h : ReadsAtOnce s t size) : 0 < size ∧
    0 < s.log.queue.unread := by
  obtain ⟨k, s', hruns, hdone, -⟩ := h
  obtain ⟨s₁, hcall, hruns⟩ := Machine.runs_cons hruns
  rw [step_callRead hidle, Option.some_inj] at hcall
  have hrun : s₁.tasks t = .running (.read size []) := by
    rw [← hcall]
    exact update_self ..
  have hqueue : s₁.log = s.log := by rw [← hcall]
  by_contra hnone
  cases k with
  | zero =>
    obtain rfl := Option.some.inj hruns
    rw [hrun] at hdone
    cases hdone
  | succ k =>
    obtain ⟨s₂, hstep, hruns⟩ := Machine.runs_cons hruns
    rw [step_sleeps hrun (by rw [hqueue]; omega), Option.some_inj] at hstep
    subst hstep
    rw [asleep_stays (update_self ..) hruns] at hdone
    cases hdone

theorem readsAtOnce_iff (hv : s.log.queue.Valid) (hidle : s.tasks t = .idle) :
    ReadsAtOnce s t size ↔ 0 < size ∧ 0 < s.log.queue.unread := by
  constructor
  · exact ReadsAtOnce.pos hidle
  · rintro ⟨hsize, hu⟩
    obtain ⟨s', hruns, hdone, hdel⟩ := collects (min size s.log.queue.unread)
      { s with tasks := update s.tasks t (.running (.read size [])) } [] hv (update_self ..) rfl
        (.inr (by omega))
    refine ⟨min size s.log.queue.unread + 1, s', ?_, hdone, ?_⟩
    · rw [Machine.runs, step_callRead hidle, Option.bind_some]
      exact hruns
    · rw [hdel, ← contents_length, ← List.take_eq_take_min]

/-- Without canonical mode and with `VMIN` zero, a call asks for what is unread, as far as it has room. -/
theorem Pty.readPtySlaveSize_polling {p : Pty} (hraw : ¬ p.tios.Canonical) (hvmin : p.tios.cCc vmin = 0)
    (hunread : p.input.queue.unread < 2 ^ 31) : p.readPtySlaveSize size = min size p.input.queue.unread := by
  rw [readPtySlaveSize, if_neg hraw, if_pos hvmin, signedSize, if_pos (by omega)]

/-- A read of the size zero sleeps in every state, so a polling read of a terminal returns at once exactly
if it asks for something and something is unread. -/
theorem polling_reads_iff (s : Channel RingFlags) (t : ℕ) (hidle : s.tasks t = .idle) :
    (∃ s₁ s₂, ringBuffer.step s (.callRead t 0) = some s₁ ∧ ringBuffer.step s₁ (.run t) = some s₂ ∧
      s₂.tasks t = .asleep (.read 0 []) ∧ ¬ ReadsAtOnce s t 0) ∧
    ∀ p : Pty, p.input = s.log → p.input.queue.Valid → p.input.queue.size < 2 ^ 31 → ¬ p.tios.Canonical →
      p.tios.cCc vmin = 0 →
      ∀ size, (ReadsAtOnce s t (p.readPtySlaveSize size) ↔ 0 < size ∧ 0 < p.input.queue.unread) := by
  constructor
  · refine ⟨_, _, step_callRead hidle, step_sleeps (update_self ..) (by omega), update_self .., fun h => ?_⟩
    exact Nat.lt_irrefl 0 (h.pos hidle).1
  · intro p hp hv hlen hraw hvmin size
    rw [Pty.readPtySlaveSize_polling hraw hvmin (hv.unread_lt.trans hlen), hp]
    rw [hp] at hv
    rw [readsAtOnce_iff hv hidle]
    omega

def Pty.inChannel (p : Pty) : Channel RingFlags := ⟨p.input, p.inFlags, fun _ => .idle⟩

/-- A terminal without canonical mode and with `VMIN` zero. -/
def rawTerminal (input : Log UInt8) : Pty :=
  { ptyNew ⟨0, 0, fun _ => 0⟩ (fun _ => 0) (fun _ => 0) (fun _ => 0) 0 with input := input }

theorem polling_reads_byte :
    ReadsAtOnce (rawTerminal ⟨⟨4096, 0, 1, fun _ => 7⟩, [7], []⟩).inChannel 0
      ((rawTerminal ⟨⟨4096, 0, 1, fun _ => 7⟩, [7], []⟩).readPtySlaveSize 5) :=
  ((polling_reads_iff (rawTerminal ⟨⟨4096, 0, 1, fun _ => 7⟩, [7], []⟩).inChannel 0 rfl).2
    (rawTerminal ⟨⟨4096, 0, 1, fun _ => 7⟩, [7], []⟩) rfl ⟨by decide, by decide⟩ (by decide) (by decide) rfl
      5).mpr (by decide)

theorem polling_read_sleeps :
    (rawTerminal ⟨⟨4096, 0, 0, fun _ => 7⟩, [], []⟩).readPtySlaveSize 5 = 0 ∧
    ((Machine.runs ringBuffer.step (rawTerminal ⟨⟨4096, 0, 0, fun _ => 7⟩, [], []⟩).inChannel [.callRead 0 0,
      .run 0]).map
      fun s => s.tasks 0) = some (.asleep (.read 0 [])) := by
  decide

end ChiffOS.Dev
