import ChiffOS.Lib.Count
import ChiffOS.Net.Semaphore

/-! The mailboxes of `sys_arch.c`: a circular buffer of messages with a semaphore that counts the mails and
one that counts the free boxes. Each of `sem_wait`, the access to the buffer and `sem_post` is one step of a
call. -/

namespace ChiffOS.Net

open List Option

def mailboxSize : ℕ := 128

structure Mailbox (α : Type) where
  buffer : ℕ → α
  wpos : ℕ
  rpos : ℕ
  mails : Sem
  boxes : Sem

def semWait (s : Sem) : ℕ × Sem := ((semTake s).value, semTake s)

/-- Where a call of `mailbox_post` or `mailbox_fetch` stands. -/
inductive MailPlace (α : Type) where
  | post (mail : α)
  | boxed (mail : α)
  | stored
  | fetch
  | mailed
  | loaded (mail : α)
  | returned

namespace MailPlace

variable {α : Type}

@[simp] def isBoxed : MailPlace α → Bool
  | boxed _ => true
  | _ => false

@[simp] def isStored : MailPlace α → Bool
  | stored => true
  | _ => false

@[simp] def isMailed : MailPlace α → Bool
  | mailed => true
  | _ => false

@[simp] def isLoaded : MailPlace α → Bool
  | loaded _ => true
  | _ => false

end MailPlace

/-- A mailbox and the calls on it, with the messages posted and fetched and how many fetches gave up. -/
structure MailState (α : Type) where
  box : Mailbox α
  calls : List (MailPlace α)
  posted : List α
  fetched : List α
  lost : ℕ

inductive MailEvent (α : Type) where
  | post (mail : α)
  | fetch
  | run (i : ℕ)

variable {α : Type}

def callStep (s : MailState α) (i : ℕ) : MailPlace α → Option (MailState α)
  | .post mail =>
    let (_, boxes) := semWait s.box.boxes
    some { s with box := { s.box with boxes := boxes }, calls := s.calls.set i (.boxed mail) }
  | .boxed mail =>
    let buffer := Function.update s.box.buffer s.box.wpos mail
    some { s with
      box := { s.box with buffer := buffer, wpos := (s.box.wpos + 1) % mailboxSize }
      calls := s.calls.set i .stored
      posted := s.posted ++ [mail] }
  | .stored =>
      some { s with box := { s.box with mails := semPost s.box.mails }, calls := s.calls.set i .returned }
  | .fetch =>
    let (err, mails) := semWait s.box.mails
    let box := { s.box with mails := mails }
    if err ≠ 0 then some { s with box := box, calls := s.calls.set i .returned, lost := s.lost + 1 }
    else some { s with box := box, calls := s.calls.set i .mailed }
  | .mailed =>
    let mail := s.box.buffer s.box.rpos
    some { s with
      box := { s.box with rpos := (s.box.rpos + 1) % mailboxSize }
      calls := s.calls.set i (.loaded mail)
      fetched := s.fetched ++ [mail] }
  | .loaded _ =>
      some { s with box := { s.box with boxes := semPost s.box.boxes }, calls := s.calls.set i .returned }
  | .returned => none

def mailStep (s : MailState α) : MailEvent α → Option (MailState α)
  | .post mail => some { s with calls := s.calls ++ [.post mail] }
  | .fetch => some { s with calls := s.calls ++ [.fetch] }
  | .run i => (s.calls[i]?).bind (callStep s i)

def mailboxInit (zero : α) : MailState α :=
  ⟨⟨fun _ => zero, 0, 0, semInit 0, semInit mailboxSize⟩, [], [], [], 0⟩

def WaitsSupplied (s : MailState α) : MailEvent α → Prop
  | .run i =>
    match s.calls[i]? with
    | some (.post _) => s.box.boxes.value ≠ 0
    | some .fetch => s.box.mails.value = 1
    | _ => True
  | _ => True

instance (s : MailState α) (e : MailEvent α) : Decidable (WaitsSupplied s e) := by
  unfold WaitsSupplied
  split
  · split <;> infer_instance
  · exact isTrue trivial

/-- What was fetched is the beginning of what was posted, and the queue does not hold more than it can. No
mail is lost: those not yet fetched are in their boxes, and each has its mark in `mails` or belongs to a
call that is about to put or has just taken it. -/
structure Delivers (s : MailState α) : Prop where
  order : s.fetched <+: s.posted
  room : s.posted.length ≤ s.fetched.length + mailboxSize
  held : ∀ j (h : j < s.posted.length), s.fetched.length ≤ j →
    s.box.buffer (j % mailboxSize) = s.posted[j]
  kept : s.lost = 0 ∧ s.posted.length = s.fetched.length + s.box.mails.value +
    s.calls.countP MailPlace.isStored + s.calls.countP MailPlace.isMailed

/-! ### The invariant -/

/-- The semaphores count the free boxes and the mails, less what the calls under way have taken, and the
boxes between the two positions hold what was posted and not yet fetched. -/
structure MailInv (s : MailState α) : Prop where
  boxes : s.box.boxes.value + s.calls.countP MailPlace.isBoxed + s.calls.countP
    MailPlace.isLoaded + s.posted.length =
    mailboxSize + s.fetched.length
  mails : s.box.mails.value + s.calls.countP MailPlace.isStored + s.calls.countP MailPlace.isMailed +
    s.fetched.length = s.posted.length
  lost : s.lost = 0
  wpos : s.box.wpos = s.posted.length % mailboxSize
  rpos : s.box.rpos = s.fetched.length % mailboxSize
  fetched : s.fetched = s.posted.take s.fetched.length
  held : ∀ j (h : j < s.posted.length), s.fetched.length ≤ j → s.box.buffer (j % mailboxSize) = s.posted[j]

theorem MailInv.delivers {s : MailState α} (h : MailInv s) : Delivers s := by
  have h1 := h.boxes
  have h2 := h.mails
  refine ⟨?_, by omega, h.held, h.lost, by omega⟩
  rw [h.fetched]
  exact take_prefix _ _

theorem mailInv_init (zero : α) : MailInv (mailboxInit zero) where
  boxes := rfl
  mails := rfl
  lost := rfl
  wpos := rfl
  rpos := rfl
  fetched := rfl
  held j h := by simp [mailboxInit] at h

theorem countP_places {calls : List (MailPlace α)} {i : ℕ} {a : MailPlace α} (h : calls[i]? = some a)
    (b : MailPlace α) :
    ((calls.set i b).countP MailPlace.isBoxed + (if a.isBoxed then 1 else 0) =
      calls.countP MailPlace.isBoxed + if b.isBoxed then 1 else 0) ∧
    ((calls.set i b).countP MailPlace.isLoaded + (if a.isLoaded then 1 else 0) =
      calls.countP MailPlace.isLoaded + if b.isLoaded then 1 else 0) ∧
    ((calls.set i b).countP MailPlace.isStored + (if a.isStored then 1 else 0) =
      calls.countP MailPlace.isStored + if b.isStored then 1 else 0) ∧
    (calls.set i b).countP MailPlace.isMailed + (if a.isMailed then 1 else 0) =
      calls.countP MailPlace.isMailed + if b.isMailed then 1 else 0 :=
  ⟨countP_set_add h b, countP_set_add h b, countP_set_add h b, countP_set_add h b⟩

theorem semTake_value {s : Sem} (h : s.value ≠ 0) : (semTake s).value + 1 = s.value := by
  unfold semTake
  rw [if_pos h]
  exact Nat.sub_add_cancel (Nat.pos_of_ne_zero h)

theorem semPost_value {s : Sem} (h : s.value + 1 < 2 ^ 32) : (semPost s).value = s.value + 1 :=
    Nat.mod_eq_of_lt h

section Steps

variable {s s' : MailState α} {i : ℕ} (h : MailInv s)
include h

/-- Neither semaphore gets beyond the size of the mailbox. -/
theorem MailInv.values : s.box.boxes.value ≤ 128 ∧ s.box.mails.value ≤ 128 := by
  have h1 := h.boxes
  have h2 := h.mails
  unfold mailboxSize at h1
  omega

theorem MailInv.step_post {mail : α} (hi : s.calls[i]? = some (.post mail)) (hg : s.box.boxes.value ≠ 0)
    (hs : callStep s i (.post mail) = some s') : MailInv s' := by
  obtain rfl := some.inj hs
  have hv := semTake_value hg
  obtain ⟨c1, c2, c3, c4⟩ := countP_places hi (.boxed mail)
  simp at c1 c2 c3 c4
  have h1 := h.boxes
  have h2 := h.mails
  exact ⟨by dsimp only [semWait]; omega, by dsimp only; omega, h.lost, h.wpos, h.rpos, h.fetched, h.held⟩

theorem MailInv.step_boxed {mail : α} (hi : s.calls[i]? = some (.boxed mail))
    (hs : callStep s i (.boxed mail) = some s') :
    MailInv s' := by
  obtain rfl := some.inj hs
  obtain ⟨c1, c2, c3, c4⟩ := countP_places hi .stored
  simp at c1 c2 c3 c4
  have h1 := h.boxes
  have h2 := h.mails
  refine ⟨by simp only [length_append, length_singleton]; omega,
    by simp only [length_append, length_singleton]; omega, h.lost, ?_, h.rpos, ?_, ?_⟩
  · simp only [length_append, length_singleton]
    rw [h.wpos, Nat.mod_add_mod]
  · dsimp only
    rw [take_append_of_le_length (by omega)]
    exact h.fetched
  · intro j hj hle
    simp only [length_append, length_singleton] at hj
    dsimp only at hle ⊢
    rw [h.wpos]
    by_cases hjp : j = s.posted.length
    · subst hjp
      rw [Function.update_self, getElem_append_right le_rfl]
      simp
    · have hne : j % mailboxSize ≠ s.posted.length % mailboxSize := by
        intro he
        have hmod : s.posted.length ≡ j [MOD mailboxSize] := he.symm
        have hdvd := (Nat.modEq_iff_dvd' (by omega)).mp hmod.symm
        exact absurd (Nat.le_of_dvd (by omega) hdvd) (by omega)
      rw [Function.update_of_ne hne, getElem_append_left (by omega)]
      exact h.held j (by omega) hle

theorem MailInv.step_stored (hi : s.calls[i]? = some .stored) (hs : callStep s i .stored = some s') :
    MailInv s' := by
  obtain rfl := some.inj hs
  have hle := h.values.2
  have hv := semPost_value (s := s.box.mails) (by omega)
  obtain ⟨c1, c2, c3, c4⟩ := countP_places hi .returned
  simp at c1 c2 c3 c4
  have h1 := h.boxes
  have h2 := h.mails
  exact ⟨by dsimp only; omega, by dsimp only; omega, h.lost, h.wpos, h.rpos, h.fetched, h.held⟩

theorem MailInv.step_fetch (hi : s.calls[i]? = some .fetch) (hg : s.box.mails.value = 1)
    (hs : callStep s i .fetch = some s') : MailInv s' := by
  have hv : (semTake s.box.mails).value = 0 := by
    have := semTake_value (s := s.box.mails) (by omega)
    omega
  have h1 := h.boxes
  have h2 := h.mails
  simp only [callStep, semWait, hv, ne_eq, not_true, if_false] at hs
  obtain rfl := some.inj hs
  obtain ⟨c1, c2, c3, c4⟩ := countP_places hi .mailed
  simp at c1 c2 c3 c4
  exact ⟨by dsimp only; omega, by dsimp only; omega, h.lost, h.wpos, h.rpos, h.fetched, h.held⟩

theorem MailInv.step_mailed (hi : s.calls[i]? = some .mailed) (hs : callStep s i .mailed = some s') :
    MailInv s' := by
  obtain rfl := some.inj hs
  obtain ⟨c1, c2, c3, c4⟩ := countP_places hi (.loaded (s.box.buffer s.box.rpos))
  simp at c1 c2 c3 c4
  have h1 := h.boxes
  have h2 := h.mails
  have hlt : s.fetched.length < s.posted.length := by omega
  have hmail : s.box.buffer s.box.rpos = s.posted[s.fetched.length] := by
    rw [h.rpos]
    exact h.held _ hlt le_rfl
  refine ⟨by simp only [length_append, length_singleton]; omega,
    by simp only [length_append, length_singleton]; omega, h.lost, h.wpos, ?_, ?_, fun j hj hle => ?_⟩
  · simp only [length_append, length_singleton]
    rw [h.rpos, Nat.mod_add_mod]
  · simp only [length_append, length_singleton]
    rw [take_add_one, ← h.fetched, hmail, List.getElem?_eq_getElem hlt]
    rfl
  · simp only [length_append, length_singleton] at hle
    exact h.held j hj (by omega)

theorem MailInv.step_loaded {mail : α} (hi : s.calls[i]? = some (.loaded mail))
    (hs : callStep s i (.loaded mail) = some s') : MailInv s' := by
  obtain rfl := some.inj hs
  have hle := h.values.1
  have hv := semPost_value (s := s.box.boxes) (by omega)
  obtain ⟨c1, c2, c3, c4⟩ := countP_places hi .returned
  simp at c1 c2 c3 c4
  have h1 := h.boxes
  have h2 := h.mails
  exact ⟨by dsimp only; omega, by dsimp only; omega, h.lost, h.wpos, h.rpos, h.fetched, h.held⟩

end Steps

theorem MailInv.call {s : MailState α} (h : MailInv s) {a : MailPlace α}
    (ha : a.isBoxed = false ∧ a.isLoaded = false ∧
    a.isStored = false ∧ a.isMailed = false) : MailInv { s with calls := s.calls ++ [a] } := by
  obtain ⟨h1, h2, h3, h4⟩ := ha
  refine ⟨?_, ?_, h.lost, h.wpos, h.rpos, h.fetched, h.held⟩
  · simp only [countP_append, countP_singleton, h1, h2]
    exact h.boxes
  · simp only [countP_append, countP_singleton, h3, h4]
    exact h.mails

theorem MailInv.step (s : MailState α) (e : MailEvent α) (s' : MailState α) (h : MailInv s)
    (hg : WaitsSupplied s e)
    (hs : mailStep s e = some s') : MailInv s' := by
  cases e with
  | post mail =>
    obtain rfl := some.inj hs
    exact h.call ⟨rfl, rfl, rfl, rfl⟩
  | fetch =>
    obtain rfl := some.inj hs
    exact h.call ⟨rfl, rfl, rfl, rfl⟩
  | run i =>
    obtain ⟨a, hi, ha⟩ := bind_eq_some_iff.mp hs
    simp only [WaitsSupplied, hi] at hg
    cases a with
    | post mail => exact h.step_post hi hg ha
    | boxed mail => exact h.step_boxed hi ha
    | stored => exact h.step_stored hi ha
    | fetch => exact h.step_fetch hi hg ha
    | mailed => exact h.step_mailed hi ha
    | loaded mail => exact h.step_loaded hi ha
    | returned => simp [callStep] at ha

/-- In every run in which each `sem_wait` is supplied, the mailbox delivers. -/
theorem mailbox_delivers (zero : α) (es : List (MailEvent α)) (s : MailState α)
    (hg : Machine.Guarded mailStep WaitsSupplied (mailboxInit zero) es)
    (hr : Machine.runs mailStep (mailboxInit zero) es = some s) : Delivers s :=
  (hg.invariant MailInv.step es _ s (mailInv_init zero) hr).delivers

/-- Two posts and two fetches, taken in turns: the second fetch waits for its mail while the first is between
`sem_wait` and the buffer. -/
def twoMails : List (MailEvent ℕ) :=
  [.post 7, .post 8, .fetch, .fetch, .run 0, .run 1, .run 0, .run 1, .run 0, .run 2, .run 1, .run 3, .run 3,
    .run 2, .run 2, .run 3]

theorem mailbox_delivers_two : ∃ s, Machine.runs mailStep (mailboxInit 0) twoMails = some s ∧
    s.fetched = [7, 8] ∧ Delivers s := by
  have hg : Machine.Guarded mailStep WaitsSupplied (mailboxInit 0) twoMails := by decide +kernel
  have hrun : (Machine.runs mailStep (mailboxInit 0) twoMails).map (·.fetched) = some [7, 8] := by decide
  obtain ⟨s, h, hf⟩ := map_eq_some_iff.mp hrun
  exact ⟨s, h, hf, mailbox_delivers 0 _ s hg h⟩

theorem mailbox_invents :
    (Machine.runs mailStep (mailboxInit 0) [.fetch, .run 0, .run 0]).map (fun s => (s.fetched, s.posted)) =
      some ([0], []) := by decide

end ChiffOS.Net
