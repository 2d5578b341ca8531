import ChiffOS.Lib.Circular
import ChiffOS.Net.Mailbox

/-! The calls on a mailbox that do not wait, `mailbox_trypost` and `mailbox_tryfetch`. A row of them is
answered as a queue with room for `MAILBOX_SIZE` messages answers it. -/

namespace ChiffOS.Net

variable {α : Type}

def semTrywait (s : Sem) : Bool × Sem := if s.value > 0 then (true, { s with value := s.value - 1 })
    else (false, s)

inductive TryCall (α : Type) where
  | trypost (mail : α)
  | tryfetch

inductive TryResult (α : Type) where
  | busy
  | posted
  | invalid
  | fetched (mail : α)

namespace Mailbox

def trypost (m : Mailbox α) (mail : α) : TryResult α × Mailbox α :=
  let (taken, boxes) := semTrywait m.boxes
  if taken then
    (.posted, { m with
      boxes := boxes
      buffer := Function.update m.buffer m.wpos mail
      wpos := (m.wpos + 1) % mailboxSize
      mails := semPost m.mails })
  else (.busy, { m with boxes := boxes })

def tryfetch (m : Mailbox α) : TryResult α × Mailbox α :=
  let (taken, mails) := semTrywait m.mails
  if taken then
    (.fetched (m.buffer m.rpos), { m with
      mails := mails
      rpos := (m.rpos + 1) % mailboxSize
      boxes := semPost m.boxes })
  else (.invalid, { m with mails := mails })

def call (m : Mailbox α) : TryCall α → Option (TryResult α × Mailbox α)
  | .trypost mail => some (m.trypost mail)
  | .tryfetch => some m.tryfetch

end Mailbox

def queueCall (q : List α) : TryCall α → Option (TryResult α × List α)
  | .trypost mail => some (if q.length = mailboxSize then (.busy, q) else (.posted, q ++ [mail]))
  | .tryfetch => some (match q with
    | [] => (.invalid, [])
    | mail :: q => (.fetched mail, q))

/-- The messages of the queue lie from `rpos` on, and the semaphores count the filled and the free boxes. -/
structure Queued (m : Mailbox α) (q : List α) : Prop where
  boxes : m.boxes.value + q.length = mailboxSize
  mails : m.mails.value = q.length
  rpos : m.rpos < mailboxSize
  wpos : m.wpos = (m.rpos + q.length) % mailboxSize
  held : ∀ i (h : i < q.length), m.buffer ((m.rpos + i) % mailboxSize) = q[i]

variable {m : Mailbox α} {q : List α}

theorem queued_init (zero : α) : Queued (mailboxInit zero).box [] := by
  refine ⟨rfl, rfl, show 0 < mailboxSize by decide, rfl, ?_⟩
  intro i h
  exact absurd h (Nat.not_lt_zero i)

theorem semTrywait_pos {s : Sem} (h : 0 < s.value) : semTrywait s = (true, { s with value := s.value - 1 }) :=
    if_pos h

theorem semTrywait_zero {s : Sem} (h : s.value = 0) : semTrywait s = (false, s) := by
  apply if_neg
  omega

theorem Queued.trypost_full (h : Queued m q) (hq : q.length = mailboxSize) (mail : α) : m.trypost mail =
    (.busy, m) := by
  have hb : m.boxes.value = 0 := by
    have := h.boxes
    omega
  rw [Mailbox.trypost, semTrywait_zero hb]
  rfl

theorem Queued.trypost (h : Queued m q) (hq : q.length ≠ mailboxSize) (mail : α) :
    ∃ m', m.trypost mail = (.posted, m') ∧ Queued m' (q ++ [mail]) := by
  have hb := h.boxes
  have hsize : mailboxSize < 2 ^ 32 := by decide
  have hpost : (semPost m.mails).value = m.mails.value + 1 := by
    apply semPost_value
    have := h.mails
    omega
  rw [Mailbox.trypost, semTrywait_pos (by omega)]
  refine ⟨_, rfl, ?_, ?_, h.rpos, ?_, ?_⟩
  · simp only [List.length_append, List.length_singleton]
    omega
  · simp only [List.length_append, List.length_singleton]
    rw [hpost, h.mails]
  · simp only [List.length_append, List.length_singleton]
    rw [h.wpos, Nat.mod_add_mod, Nat.add_assoc]
  · intro i hi
    simp only [List.length_append, List.length_singleton] at hi
    dsimp only
    rw [h.wpos]
    by_cases hlast : i = q.length
    · subst hlast
      rw [Function.update_self, List.getElem_append_right le_rfl]
      simp
    · have hne := Circular.add_mod_ne (p := m.rpos) (show i < mailboxSize by omega)
        (show q.length < mailboxSize by omega) hlast
      rw [Function.update_of_ne hne, List.getElem_append_left (by omega)]
      exact h.held i (by omega)

theorem Queued.tryfetch_empty (h : Queued m []) : m.tryfetch = (.invalid, m) := by
  rw [Mailbox.tryfetch, semTrywait_zero h.mails]
  rfl

theorem Queued.tryfetch {mail : α} (h : Queued m (mail :: q)) : ∃ m', m.tryfetch = (.fetched mail, m') ∧
    Queued m' q := by
  have hb := h.boxes
  have hm := h.mails
  have hsize : mailboxSize < 2 ^ 32 := by decide
  rw [List.length_cons] at hb hm
  have hpost : (semPost m.boxes).value = m.boxes.value + 1 := semPost_value (by omega)
  have hfirst : m.buffer m.rpos = mail := by
    have := h.held 0 (by simp)
    rwa [Nat.add_zero, Nat.mod_eq_of_lt h.rpos] at this
  rw [Mailbox.tryfetch, semTrywait_pos (by omega)]
  refine ⟨_, by rw [← hfirst]; rfl, ?_, ?_, Nat.mod_lt _ (show 0 < mailboxSize by decide), ?_, ?_⟩
  · dsimp only
    omega
  · dsimp only
    omega
  · dsimp only
    rw [h.wpos, List.length_cons, Nat.mod_add_mod, Nat.add_assoc, Nat.add_comm 1]
  · intro i hi
    have hnext := h.held (i + 1) (by simpa using hi)
    dsimp only
    rw [Nat.mod_add_mod, Nat.add_assoc, Nat.add_comm 1, hnext, List.getElem_cons_succ]

theorem Queued.call (m : Mailbox α) (q : List α) (c : TryCall α) (r : TryResult α) (q' : List α)
    (h : Queued m q)
    (hq : queueCall q c = some (r, q')) : ∃ m', m.call c = some (r, m') ∧ Queued m' q' := by
  cases c with
  | trypost mail =>
    by_cases hfull : q.length = mailboxSize
    · rw [queueCall, if_pos hfull] at hq
      obtain ⟨rfl, rfl⟩ := Prod.mk.inj (Option.some.inj hq)
      exact ⟨m, congrArg some (h.trypost_full hfull mail), h⟩
    · rw [queueCall, if_neg hfull] at hq
      obtain ⟨rfl, rfl⟩ := Prod.mk.inj (Option.some.inj hq)
      obtain ⟨m', hm, hq'⟩ := h.trypost hfull mail
      exact ⟨m', congrArg some hm, hq'⟩
  | tryfetch =>
    cases q with
    | nil =>
      obtain ⟨rfl, rfl⟩ := Prod.mk.inj (Option.some.inj hq)
      exact ⟨m, congrArg some h.tryfetch_empty, h⟩
    | cons mail q =>
      obtain ⟨rfl, rfl⟩ := Prod.mk.inj (Option.some.inj hq)
      obtain ⟨m', hm, hq'⟩ := h.tryfetch
      exact ⟨m', congrArg some hm, hq'⟩

theorem queueCall_answers (cs : List (TryCall α)) : ∀ q : List α, ∃ rs q', Machine.answers queueCall q cs =
    some (rs, q') := by
  induction cs with
  | nil =>
    intro q
    exact ⟨[], q, rfl⟩
  | cons c cs ih =>
    intro q
    obtain ⟨⟨r, q₁⟩, h1⟩ : ∃ x, queueCall q c = some x := by
      cases c with
      | trypost mail => exact ⟨_, rfl⟩
      | tryfetch => exact ⟨_, rfl⟩
    obtain ⟨rs, q', h2⟩ := ih q₁
    exact ⟨r :: rs, q', by simp [Machine.answers, h1, h2]⟩

/-- A new mailbox answers every row of calls as the queue does, and its semaphores are then the numbers of
free and of filled boxes. -/
theorem mailbox_bounded_fifo (zero : α) (cs : List (TryCall α)) : ∃ rs q m,
    Machine.answers queueCall [] cs = some (rs, q) ∧ Machine.answers Mailbox.call (mailboxInit zero).box cs =
      some (rs, m) ∧
      m.boxes.value = mailboxSize - q.length ∧ m.mails.value = q.length := by
  obtain ⟨rs, q, hq⟩ := queueCall_answers cs []
  obtain ⟨m, hm, hqueued⟩ :=
    (Machine.specRun_of_answers hq).refines (I := Queued) Queued.call (mailboxInit zero).box
      (queued_init zero)
  refine ⟨rs, q, m, hq, hm, ?_, hqueued.mails⟩
  have := hqueued.boxes
  omega

end ChiffOS.Net
