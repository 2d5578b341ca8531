import ChiffOS.Lib.Runs
import ChiffOS.Lib.Bytes

/-! The RTL8139 driver: `rtl8139if_output`, `rtl_tx_inthandler` and `rtl_rx_inthandler`. What the card puts
into its registers and into the receive ring is given from outside. -/

namespace ChiffOS.Net

def ethPadSize : ℕ := 2

/-! ### Sending -/

def tsdTabt : ℕ := 1 <<< 30

def tsdOwc : ℕ := 1 <<< 29

def tsdTok : ℕ := 1 <<< 15

def tsdTun : ℕ := 1 <<< 14

def msrLinkb : ℕ := 0x4

inductive Err where
  | ok
  | conn
  | interface
deriving DecidableEq

/-- A chain of `struct pbuf` that is one packet. -/
structure Packet where
  payloads : List (List UInt8)
  totLen : ℕ
  totLen_eq : totLen = (payloads.map List.length).sum

/-- The fields of `rtl1839if_t` that sending uses. -/
structure Sender where
  txQueue : ℕ
  txComplete : ℕ
  txInuse : ℕ → ℕ
  txBuffer : ℕ → Buf

namespace Sender

/-- What `memset` leaves in `rtl8139if_init`. -/
def start (txBuffer : ℕ → Buf) : Sender := ⟨0, 0, fun _ => 0, txBuffer⟩

def outstanding (s : Sender) : ℕ := (((s.txQueue : ℤ) - s.txComplete) % 2 ^ 32).toNat

/-- The payloads after `pbuf_header(p, -ETH_PAD_SIZE)`, which a first buffer that is too short refuses. -/
def dropPad : List (List UInt8) → List (List UInt8)
  | [] => []
  | q :: qs => (if ethPadSize ≤ q.length then q.drop ethPadSize else q) :: qs

def copyChain (b : Buf) (i : ℕ) : List (List UInt8) → Buf
  | [] => b
  | q :: qs => copyChain (b.blit i (fun j => q.getD j 0) q.length) (i + q.length) qs

def send (s : Sender) (p : Packet) : Sender :=
  let transmitid := s.txQueue % 4
  { s with
    txQueue := (s.txQueue + 1) % 2 ^ 32
    txInuse := Function.update s.txInuse transmitid 1
    txBuffer := Function.update s.txBuffer transmitid
      (copyChain (s.txBuffer transmitid) 0 (dropPad p.payloads)) }

/-- `rtl8139if_output`, where `msr` is what the media status register reads. -/
def output (s : Sender) (p : Packet) (msr : ℕ) : Err × Sender :=
  let transmitid := s.txQueue % 4
  if s.outstanding > 3 then (.interface, s)
  else if p.totLen > 1792 then (.interface, s)
  else if s.txInuse transmitid = 1 then (.interface, s)
  else if msr &&& msrLinkb ≠ 0 then (.conn, s)
  else (.ok, s.send p)

def complete (s : Sender) : Sender :=
  { s with
    txInuse := Function.update s.txInuse (s.txComplete % 4) 0
    txComplete := (s.txComplete + 1) % 2 ^ 32 }

/-- The loop of `rtl_tx_inthandler`: the state it returns with and the iterations it has made. `tsd turn
slot` is what the status register of the slot reads in an iteration. -/
def txLoop (tsd : ℕ → ℕ → ℕ) : (fuel turn : ℕ) → Sender → (checks : ℕ) → Option (Sender × ℕ)
  | _, turn, s, 0 => some (s, turn)
  | 0, _, _, _ + 1 => none
  | fuel + 1, turn, s, checks + 1 =>
    let txstatus := tsd turn (s.txComplete % 4)
    if txstatus &&& (tsdTok ||| tsdTun ||| tsdTabt) = 0 then some (s, turn + 1)
    -- `continue`, with the slot not consumed
    else if txstatus &&& (tsdTabt ||| tsdOwc) ≠ 0 then txLoop tsd fuel (turn + 1) s (checks + 1)
    else if txstatus &&& tsdTok ≠ 0 then txLoop tsd fuel (turn + 1) s.complete checks
    else txLoop tsd fuel (turn + 1) s (checks + 1)

def txInthandler (s : Sender) (tsd : ℕ → ℕ → ℕ) (fuel : ℕ) : Option (Sender × ℕ) :=
  txLoop tsd fuel 0 s s.outstanding

/-! ### What the handler does with a status -/

def Pending (txstatus : ℕ) : Prop := txstatus &&& (tsdTok ||| tsdTun ||| tsdTabt) = 0

def Done (txstatus : ℕ) : Prop :=
  ¬ Pending txstatus ∧ txstatus &&& (tsdTabt ||| tsdOwc) = 0 ∧ txstatus &&& tsdTok ≠ 0

/-- The slot is neither released nor left: aborted, out of window, or an underrun that was not sent. -/
def Stuck (txstatus : ℕ) : Prop :=
  ¬ Pending txstatus ∧ (txstatus &&& (tsdTabt ||| tsdOwc) ≠ 0 ∨ txstatus &&& tsdTok = 0)

theorem status_cases (txstatus : ℕ) : Pending txstatus ∨ Done txstatus ∨ Stuck txstatus := by
  unfold Done Stuck
  tauto

variable {tsd : ℕ → ℕ → ℕ} {fuel turn checks : ℕ} {s : Sender}

theorem txLoop_pending (h : Pending (tsd turn (s.txComplete % 4))) :
    txLoop tsd (fuel + 1) turn s (checks + 1) = some (s, turn + 1) := by
  unfold Pending at h
  simp only [txLoop, h, if_true]

theorem txLoop_done (h : Done (tsd turn (s.txComplete % 4))) :
    txLoop tsd (fuel + 1) turn s (checks + 1) = txLoop tsd fuel (turn + 1) s.complete checks := by
  obtain ⟨h1, h2, h3⟩ := h
  unfold Pending at h1
  simp only [txLoop, h1, h2, h3, ne_eq, not_true_eq_false, not_false_eq_true, if_true, if_false]

theorem txLoop_stuck (h : Stuck (tsd turn (s.txComplete % 4))) :
    txLoop tsd (fuel + 1) turn s (checks + 1) = txLoop tsd fuel (turn + 1) s (checks + 1) := by
  obtain ⟨h1, h2⟩ := h
  unfold Pending at h1
  cases h2 with
  | inl h2 => simp only [txLoop, h1, h2, ne_eq, not_false_eq_true, if_true, if_false]
  | inr h2 => simp only [txLoop, h1, h2, ne_eq, not_true_eq_false, if_false, ite_self]

/-! ### Accounting -/

/-- The slots in use are those of the `n` sequence numbers from `tx_complete` on. -/
structure Counts (s : Sender) (n : ℕ) : Prop where
  le : n ≤ 4
  complete_lt : s.txComplete < 2 ^ 32
  queue : s.txQueue = (s.txComplete + n) % 2 ^ 32
  inuse : ∀ k < n, s.txInuse ((s.txComplete + k) % 4) = 1
  free : ∀ k < 4, n ≤ k → s.txInuse ((s.txComplete + k) % 4) = 0

theorem Counts.outstanding_eq {n : ℕ} (h : Counts s n) : s.outstanding = n := by
  have := h.le
  have := h.complete_lt
  have := h.queue
  unfold outstanding
  omega

theorem start_counts (b : ℕ → Buf) : Counts (start b) 0 where
  le := by omega
  complete_lt := by simp [start]
  queue := by simp [start]
  inuse := by
    intro k hk
    omega
  free := by
    intro k _ _
    rfl

theorem output_cases (s : Sender) (p : Packet) (msr : ℕ) :
    (s.output p msr).2 = s ∨ s.outstanding ≤ 3 ∧ (s.output p msr).2 = s.send p := by
  simp only [output]
  by_cases h3 : s.outstanding > 3
  · rw [if_pos h3]
    exact Or.inl rfl
  by_cases hl : p.totLen > 1792
  · rw [if_neg h3, if_pos hl]
    exact Or.inl rfl
  by_cases hu : s.txInuse (s.txQueue % 4) = 1
  · rw [if_neg h3, if_neg hl, if_pos hu]
    exact Or.inl rfl
  by_cases hm : msr &&& msrLinkb ≠ 0
  · rw [if_neg h3, if_neg hl, if_neg hu, if_pos hm]
    exact Or.inl rfl
  · rw [if_neg h3, if_neg hl, if_neg hu, if_neg hm]
    exact Or.inr ⟨Nat.le_of_not_gt h3, rfl⟩

/-- A packet that is accepted takes the slot behind those in use. -/
theorem Counts.send {n : ℕ} (h : Counts s n) (h3 : n ≤ 3) (p : Packet) : Counts (s.send p) (n + 1) := by
  have hc := h.complete_lt
  have hq := h.queue
  have hslot : s.txQueue % 4 = (s.txComplete + n) % 4 := by omega
  have hI : ∀ i, (s.send p).txInuse i = if i = (s.txComplete + n) % 4 then 1 else s.txInuse i := by
    intro i
    rw [← hslot]
    exact Function.update_apply _ _ _ _
  have hC : (s.send p).txComplete = s.txComplete := rfl
  have hQ : (s.send p).txQueue = (s.txQueue + 1) % 2 ^ 32 := rfl
  refine ⟨by omega, by rw [hC]; exact hc, by rw [hQ, hC]; omega, ?_, ?_⟩
  · intro k hk
    rw [hI, hC]
    split
    · rfl
    · exact h.inuse k (by omega)
  · intro k hk hn
    rw [hI, hC, if_neg (by omega)]
    exact h.free k hk (by omega)

theorem Counts.send_buffer {n k : ℕ} (h : Counts s n) (h3 : n ≤ 3) (hk : k < n) (p : Packet) :
    (s.send p).txBuffer ((s.txComplete + k) % 4) = s.txBuffer ((s.txComplete + k) % 4) := by
  have hc := h.complete_lt
  have hq := h.queue
  exact Function.update_of_ne (by omega) _ _

theorem Counts.output {n : ℕ} (h : Counts s n) (p : Packet) (msr : ℕ) :
    (∃ n', Counts (s.output p msr).2 n') ∧
      ∀ k < n, (s.output p msr).2.txBuffer ((s.txComplete + k) % 4) =
        s.txBuffer ((s.txComplete + k) % 4) := by
  obtain he | ⟨h3, he⟩ := output_cases s p msr
  · rw [he]
    exact ⟨⟨n, h⟩, fun _ _ => rfl⟩
  · rw [he]
    rw [h.outstanding_eq] at h3
    exact ⟨⟨n + 1, h.send h3 p⟩, fun k hk => h.send_buffer h3 hk p⟩

theorem complete_slot (s : Sender) (i : ℕ) :
    (s.complete.txComplete + i) % 4 = (s.txComplete + (i + 1)) % 4 := by
  have hC : s.complete.txComplete = (s.txComplete + 1) % 2 ^ 32 := rfl
  omega

/-- A finished packet gives its slot back. -/
theorem Counts.complete {n : ℕ} (h : Counts s (n + 1)) : Counts s.complete n := by
  have hle := h.le
  have hc := h.complete_lt
  have hq := h.queue
  have hC : s.complete.txComplete = (s.txComplete + 1) % 2 ^ 32 := rfl
  have hI : ∀ i, s.complete.txInuse i = if i = s.txComplete % 4 then 0 else s.txInuse i := fun i =>
    Function.update_apply _ _ _ _
  refine ⟨by omega, by omega, ?_, ?_, ?_⟩
  · show s.txQueue = (s.complete.txComplete + n) % 2 ^ 32
    omega
  · intro k hk
    rw [complete_slot, hI, if_neg (by omega)]
    exact h.inuse (k + 1) (by omega)
  · intro k hk hn
    rw [complete_slot, hI]
    -- the last of the four slots is the one just released
    by_cases h3 : k = 3
    · rw [if_pos (by omega)]
    · rw [if_neg (by omega)]
      exact h.free (k + 1) (by omega) (by omega)

theorem txLoop_counts : ∀ (fuel turn : ℕ) (s : Sender) (checks : ℕ) (r : Sender × ℕ), Counts s checks →
    txLoop tsd fuel turn s checks = some r → ∃ n, Counts r.1 n := by
  intro fuel
  induction fuel with
  | zero =>
    intro turn s checks r h hr
    cases checks with
    | zero =>
      obtain rfl := Option.some.inj hr
      exact ⟨0, h⟩
    | succ checks => cases hr
  | succ fuel ih =>
    intro turn s checks r h hr
    cases checks with
    | zero =>
      obtain rfl := Option.some.inj hr
      exact ⟨0, h⟩
    | succ checks =>
      obtain hp | hd | hk := status_cases (tsd turn (s.txComplete % 4))
      · rw [txLoop_pending hp] at hr
        obtain rfl := Option.some.inj hr
        exact ⟨checks + 1, h⟩
      · rw [txLoop_done hd] at hr
        exact ih _ _ _ r h.complete hr
      · rw [txLoop_stuck hk] at hr
        exact ih _ _ _ r h hr

/-- A call of the sender, or of the handler with what it reads and the iterations it makes. -/
inductive TxEvent where
  | output (p : Packet) (msr : ℕ)
  | interrupt (tsd : ℕ → ℕ → ℕ) (fuel : ℕ)

def txStep (s : Sender) : TxEvent → Option Sender
  | .output p msr => some (s.output p msr).2
  | .interrupt tsd fuel => (s.txInthandler tsd fuel).map Prod.fst

theorem txStep_counts (s : Sender) (e : TxEvent) (s' : Sender) (h : ∃ n, Counts s n)
    (hs : txStep s e = some s') : ∃ n, Counts s' n := by
  obtain ⟨n, h⟩ := h
  cases e with
  | output p msr =>
    obtain rfl := Option.some.inj hs
    exact (h.output p msr).1
  | interrupt tsd fuel =>
    obtain ⟨r, hr, rfl⟩ := Option.map_eq_some_iff.mp hs
    unfold txInthandler at hr
    rw [h.outstanding_eq] at hr
    exact txLoop_counts _ _ _ _ r h hr

/-- Transmit slots are accounted exactly: whatever is sent and whatever the card reports, at most four
packets are outstanding, a slot is in use exactly when one of their sequence numbers has it, and a call of
the sender leaves their buffers alone. -/
theorem tx_slots_accounted (b : ℕ → Buf) (es : List TxEvent) (s : Sender)
    (hr : Machine.runs txStep (start b) es = some s) :
    s.outstanding ≤ 4 ∧
      (∀ slot < 4, s.txInuse slot = 1 ↔ ∃ k < s.outstanding, (s.txComplete + k) % 4 = slot) ∧
      ∀ p msr, ∀ k < s.outstanding,
        (s.output p msr).2.txBuffer ((s.txComplete + k) % 4) = s.txBuffer ((s.txComplete + k) % 4) := by
  obtain ⟨n, h⟩ := Machine.invariant (I := fun s => ∃ n, Counts s n) txStep_counts es _ s
    ⟨0, start_counts b⟩ hr
  rw [h.outstanding_eq]
  refine ⟨h.le, ?_, ?_⟩
  · intro slot hslot
    constructor
    · intro h1
      obtain ⟨k, hk, hks⟩ : ∃ k < 4, (s.txComplete + k) % 4 = slot :=
        ⟨(slot + 4 - s.txComplete % 4) % 4, by omega, by omega⟩
      refine ⟨k, ?_, hks⟩
      by_contra hn
      have h0 := h.free k hk (by omega)
      rw [hks, h1] at h0
      omega
    · rintro ⟨k, hk, rfl⟩
      exact h.inuse k hk
  · intro p msr
    exact (h.output p msr).2

/-- Two packets are sent, and the card reports that the first is out. -/
def oneOut : List TxEvent :=
  [.output ⟨[[0, 0, 1, 2], [3]], 5, rfl⟩ 0, .output ⟨[[0, 0, 9]], 3, rfl⟩ 0,
    .interrupt (fun _ slot => if slot = 0 then tsdTok else 0) 5]

theorem tx_slots_accounted_out : ∃ s, Machine.runs txStep (start fun _ _ => 0) oneOut = some s ∧
    s.outstanding = 1 ∧ s.txInuse 0 ≠ 1 ∧ s.txInuse 1 = 1 ∧
      ∀ p msr, (s.output p msr).2.txBuffer 1 = s.txBuffer 1 := by
  have hrun : (Machine.runs txStep (start fun _ _ => 0) oneOut).map (fun s => (s.outstanding, s.txComplete)) =
      some (1, 1) := by decide
  obtain ⟨s, hs, h⟩ := Option.map_eq_some_iff.mp hrun
  obtain ⟨ho, hc⟩ := Prod.mk.inj h
  obtain ⟨-, hinuse, hbuf⟩ := tx_slots_accounted _ oneOut s hs
  rw [ho, hc] at hinuse hbuf
  exact ⟨s, hs, ho, fun h0 => absurd ((hinuse 0 (by decide)).mp h0) (by decide),
    (hinuse 1 (by decide)).mpr ⟨0, by decide, rfl⟩, fun p msr => hbuf p msr 0 (by decide)⟩

theorem copyChain_eq : ∀ (qs : List (List UInt8)) (b : Buf) (i : ℕ),
    copyChain b i qs = b.blit i (fun j => qs.flatten.getD j 0) qs.flatten.length := by
  intro qs
  induction qs with
  | nil => exact fun b i => (Buf.blit_nothing b _ i).symm
  | cons q qs ih =>
    intro b i
    have hq : b.blit i (fun j => q.getD j 0) q.length =
      b.blit i (fun j => (q ++ qs.flatten).getD j 0) q.length :=
      Buf.blit_congr fun j hj => by simp [List.getElem?_append_left hj]
    rw [copyChain, ih, List.flatten_cons, List.length_append, ← Buf.blit_append, hq]
    exact Buf.blit_congr fun j _ => by simp [Buf.drop_apply, List.getElem?_append_right]

/-- After every history a packet is accepted exactly if fewer than four are outstanding, it is short enough
and there is a link: a used slot is never the reason. Its slot then begins with its bytes, without the
padding word if the first buffer of the chain is long enough to hold it. -/
theorem output_accepted_iff (b : ℕ → Buf) (es : List TxEvent) (hr : Machine.runs txStep (start b) es = some s)
    (p : Packet) (msr : ℕ) :
    ((s.output p msr).1 = .ok ↔ s.outstanding ≤ 3 ∧ p.totLen ≤ 1792 ∧ msr &&& msrLinkb = 0) ∧
      ((s.output p msr).1 = .ok → (s.output p msr).2.txBuffer (s.txQueue % 4) =
        (s.txBuffer (s.txQueue % 4)).blit 0
        (fun j => (dropPad p.payloads).flatten.getD j 0) (dropPad p.payloads).flatten.length) := by
  obtain ⟨n, h⟩ := Machine.invariant txStep_counts es _ s ⟨0, start_counts b⟩ hr
  have hfree (h3 : s.outstanding ≤ 3) : s.txInuse (s.txQueue % 4) = 0 := by
    rw [h.outstanding_eq] at h3
    have := h.queue
    rw [show s.txQueue % 4 = (s.txComplete + n) % 4 by omega]
    exact h.free n (by omega) le_rfl
  simp only [output]
  split_ifs with h1 h2 h3 h4
  · simp; omega
  · simp; omega
  · rw [hfree (by omega)] at h3
    cases h3
  · simp [h4]
  · refine ⟨by simp [not_not.mp h4]; omega, fun _ => ?_⟩
    exact (Function.update_self _ _ _).trans (copyChain_eq _ _ 0)

/-- A third packet goes into slot 2, from its third byte on. -/
theorem output_accepted_third : ∃ s, Machine.runs txStep (start fun _ _ => 0) oneOut = some s ∧
    (s.output ⟨[[0, 0, 7, 8], [9]], 5, rfl⟩ 0).1 = .ok ∧
      (List.range 4).map ((s.output ⟨[[0, 0, 7, 8], [9]], 5, rfl⟩ 0).2.txBuffer 2) = [7, 8, 9, 0] := by
  have hrun : (Machine.runs txStep (start fun _ _ => 0) oneOut).map
      (fun s => (s.outstanding, s.txQueue, s.txBuffer 2 3)) = some (1, 2, 0) := by decide
  obtain ⟨s, hs, h⟩ := Option.map_eq_some_iff.mp hrun
  obtain ⟨ho, hq⟩ := Prod.mk.inj h
  obtain ⟨hq, hb⟩ := Prod.mk.inj hq
  obtain ⟨hok, hbuf⟩ := output_accepted_iff _ oneOut hs ⟨[[0, 0, 7, 8], [9]], 5, rfl⟩ 0
  have hacc := hok.mpr ⟨by omega, by decide, by decide⟩
  have hslot := hbuf hacc
  rw [hq] at hslot
  refine ⟨s, hs, hacc, ?_⟩
  rw [show (2 : ℕ) % 4 = 2 from rfl] at hslot
  rw [hslot]
  simp [List.range_succ, dropPad, ethPadSize, Buf.blit, hb]

/-! ### Termination -/

def Unblocked (tsd : ℕ → ℕ) (s : Sender) (checks : ℕ) : Prop :=
  ∀ j < checks, (∀ i < j, Done (tsd ((s.txComplete + i) % 4))) → ¬ Stuck (tsd ((s.txComplete + j) % 4))

variable {status : ℕ → ℕ}

/-- A stuck slot keeps the handler for ever. -/
theorem txLoop_stuck_none (hk : Stuck (status (s.txComplete % 4))) :
    ∀ fuel turn, txLoop (fun _ => status) fuel turn s (checks + 1) = none := by
  intro fuel
  induction fuel with
  | zero => intro turn; rfl
  | succ fuel ih =>
    intro turn
    rw [txLoop_stuck hk]
    exact ih (turn + 1)

theorem unblocked_succ (hd : Done (status (s.txComplete % 4))) :
    Unblocked status s (checks + 1) ↔ Unblocked status s.complete checks := by
  unfold Unblocked
  simp only [complete_slot]
  constructor
  · intro h j hj hi
    apply h (j + 1) (by omega)
    intro i hij
    cases i with
    | zero => exact hd
    | succ i => exact hi i (by omega)
  · intro h j hj hi
    cases j with
    | zero =>
      rintro ⟨_, h1 | h1⟩
      · exact h1 hd.2.1
      · exact hd.2.2 h1
    | succ j => exact h j (by omega) fun i hij => hi (i + 1) (by omega)

theorem txLoop_returns_iff : ∀ (checks : ℕ) (turn : ℕ) (s : Sender),
    (∃ fuel r, txLoop (fun _ => status) fuel turn s checks = some r ∧ r.2 ≤ turn + checks) ↔
      Unblocked status s checks := by
  intro checks
  induction checks with
  | zero =>
    intro turn s
    refine ⟨fun _ j hj => by omega, fun _ => ⟨0, (s, turn), rfl, by omega⟩⟩
  | succ checks ih =>
    intro turn s
    obtain hp | hd | hk := status_cases (status (s.txComplete % 4))
    · refine ⟨fun _ j _ hi => ?_, fun _ => ⟨1, (s, turn + 1), txLoop_pending hp, by simp only; omega⟩⟩
      cases j with
      | zero => exact fun hk => hk.1 hp
      | succ j => exact absurd hp (hi 0 (by omega)).1
    · rw [unblocked_succ hd, ← ih (turn + 1)]
      constructor
      · rintro ⟨fuel, r, hr, hle⟩
        cases fuel with
        | zero => exact absurd hr (by simp [txLoop])
        | succ fuel =>
          rw [txLoop_done hd] at hr
          exact ⟨fuel, r, hr, by omega⟩
      · rintro ⟨fuel, r, hr, hle⟩
        exact ⟨fuel + 1, r, (txLoop_done hd).trans hr, by omega⟩
    · constructor
      · rintro ⟨fuel, r, hr, _⟩
        rw [txLoop_stuck_none hk] at hr
        cases hr
      · intro h
        exact absurd hk (h 0 (by omega) (by intro i hi; omega))

/-- With constant status registers the handler returns after at most as many iterations as packets are
outstanding exactly when no slot it comes to is stuck. -/
theorem tx_inthandler_returns_iff (s : Sender) (status : ℕ → ℕ) :
    (∃ fuel r, s.txInthandler (fun _ => status) fuel = some r ∧ r.2 ≤ s.outstanding) ↔
      Unblocked status s s.outstanding := by
  have h := @txLoop_returns_iff status s.outstanding 0 s
  rw [Nat.zero_add] at h
  exact h

def abortedSender : Sender := ⟨1, 0, fun _ => 1, fun _ _ => 0⟩

/-- One packet is outstanding and the card has aborted it: the handler never returns. -/
theorem tx_inthandler_aborted :
    ¬ ∃ fuel r, abortedSender.txInthandler (fun _ _ => tsdTabt) fuel = some r := by
  rintro ⟨fuel, r, hr⟩
  have ho : abortedSender.outstanding = 0 + 1 := by norm_num [outstanding, abortedSender]
  unfold txInthandler at hr
  rw [ho, txLoop_stuck_none (by unfold Stuck Pending; decide)] at hr
  cases hr

end Sender

/-! ### Receiving -/

def rxBufLen : ℕ := 81921

def isrRok : ℕ := 0x01

/-- `PBUF_POOL_BUFSIZE`: a segment with its headers, rounded up to the alignment. -/
def pbufPoolBufsize : ℕ := 1520

/-- The lengths of the chain that `pbuf_alloc` builds for `length` bytes from the pool, without the first. -/
def chainTail : (fuel rem : ℕ) → List ℕ
  | 0, _ => []
  | fuel + 1, rem => if rem = 0 then [] else min rem pbufPoolBufsize :: chainTail fuel
    (rem - min rem pbufPoolBufsize)

def pbufChain (length : ℕ) : List ℕ :=
  let first := min length pbufPoolBufsize
  (if ethPadSize ≤ first then first - ethPadSize else first) :: chainTail length (length - first)

def advance (rxPos n : ℕ) : ℕ := (rxPos + n) % rxBufLen % 2 ^ 16

def ringBytes (ring : Buf) (off len : ℕ) : List UInt8 := (List.range len).map fun j => ring (off + j)

def copyOut (ring : Buf) (rxPos len : ℕ) : List UInt8 :=
  let i := min len (rxBufLen - rxPos)
  ringBytes ring rxPos i ++ if i < len then ringBytes ring 0 (len - i) else []

/-- The loop over the chain of an accepted packet: the buffers and the position behind it. -/
def takeChain (ring : Buf) (rxPos : ℕ) : List ℕ → List (List UInt8) × ℕ
  | [] => ([], rxPos)
  | len :: lens =>
    let (rest, pos) := takeChain ring (advance rxPos len) lens
    (copyOut ring rxPos len :: rest, pos)

def alignPos (rxPos : ℕ) : ℕ := (rxPos + 7) / 4 * 4 % rxBufLen % 2 ^ 16

def packetLength (field : ℕ) : ℕ := (((field : ℤ) - 4 + ethPadSize) % 2 ^ 16).toNat

/-- What the handler finds when the card has a packet: the ring, and whether `pbuf_alloc` has enough
buffers. -/
structure Arrival where
  ring : Buf
  pool : Bool

/-- `rtl_rx_inthandler` over the packets that arrive before the buffer is empty: the packets handed to lwIP
and the position. A header without a good status ends it. -/
def rtlRxInthandler (rxPos : ℕ) : List Arrival → List (List (List UInt8)) × ℕ
  | [] => ([], rxPos)
  | a :: as =>
    let header := a.ring.u16 rxPos
    let rxPos := advance rxPos 2
    if header &&& isrRok = 0 then ([], rxPos)
    else
      let length := packetLength (a.ring.u16 rxPos)
      let rxPos := advance rxPos 2
      if a.pool then
        let (packet, pos) := takeChain a.ring rxPos (pbufChain length)
        let (packets, pos) := rtlRxInthandler (alignPos pos) as
        (packet :: packets, pos)
      else rtlRxInthandler (alignPos ((rxPos + (rxPos + length) % rxBufLen) % 2 ^ 16)) as

theorem advance_eq {rxPos n : ℕ} (h : rxPos < 2 ^ 16) (hn : n ≤ pbufPoolBufsize) :
    advance rxPos n = (rxPos + n) % 2 ^ 16 := by
  unfold advance
  rw [Nat.mod_eq_of_lt (a := rxPos + n)]
  unfold pbufPoolBufsize at hn
  unfold rxBufLen
  omega

theorem advance_lt (rxPos n : ℕ) : advance rxPos n < 2 ^ 16 := Nat.mod_lt _ (by decide)

theorem advance_header {rxPos : ℕ} (h : rxPos < 2 ^ 16) : advance (advance rxPos 2) 2 =
    (rxPos + 4) % 2 ^ 16 := by
  rw [advance_eq (advance_lt rxPos 2) (by decide), advance_eq h (by decide)]
  omega

/-- The padding comes to the length and the checksum goes. -/
theorem packetLength_eq {field : ℕ} (h : 4 ≤ field) (hf : field < 2 ^ 16) : packetLength field =
    field - 2 := by
  unfold packetLength ethPadSize
  omega

/-- No buffer of a chain is long enough to reach the end of the ring from a 16-bit position. -/
theorem takeChain_pos (ring : Buf) : ∀ (lens : List ℕ) (rxPos : ℕ), rxPos < 2 ^ 16 →
    (∀ len ∈ lens, len ≤ pbufPoolBufsize) → (takeChain ring rxPos lens).2 = (rxPos + lens.sum) % 2 ^ 16 := by
  intro lens
  induction lens with
  | nil =>
    intro rxPos h _
    exact (Nat.mod_eq_of_lt h).symm
  | cons len lens ih =>
    intro rxPos h hl
    have hlen := advance_eq h (hl len (by simp))
    have hnext := ih (advance rxPos len) (Nat.mod_lt _ (by decide)) fun l hm => hl l (by simp [hm])
    simp only [takeChain, List.sum_cons]
    rw [hnext, hlen]
    omega

theorem chainTail_spec : ∀ (fuel rem : ℕ), rem ≤ fuel →
    (chainTail fuel rem).sum = rem ∧ ∀ len ∈ chainTail fuel rem, len ≤ pbufPoolBufsize := by
  intro fuel
  induction fuel with
  | zero =>
    intro rem h
    simp only [chainTail, List.sum_nil, List.not_mem_nil, false_implies, implies_true, and_true]
    omega
  | succ fuel ih =>
    intro rem h
    unfold chainTail
    split
    · simp [*]
    · have hp : 0 < pbufPoolBufsize := by decide
      obtain ⟨h1, h2⟩ := ih (rem - min rem pbufPoolBufsize) (by omega)
      refine ⟨by rw [List.sum_cons, h1]; omega, ?_⟩
      intro len hm
      obtain rfl | hm := List.mem_cons.mp hm
      · exact min_le_right _ _
      · exact h2 len hm

/-- The chain holds the packet without the padding. -/
theorem pbufChain_spec {length : ℕ} (h : ethPadSize ≤ length) :
    (pbufChain length).sum = length - ethPadSize ∧ ∀ len ∈ pbufChain length, len ≤ pbufPoolBufsize := by
  have hp : ethPadSize ≤ pbufPoolBufsize := by decide
  obtain ⟨h1, h2⟩ := chainTail_spec length (length - min length pbufPoolBufsize) (by omega)
  simp only [pbufChain]
  rw [if_pos (by omega)]
  refine ⟨by rw [List.sum_cons, h1]; omega, ?_⟩
  intro len hm
  obtain rfl | hm := List.mem_cons.mp hm
  · omega
  · exact h2 len hm

/-- Two positions are rounded to one exactly when they lie in one dword of the ring. -/
theorem alignPos_eq_iff {x d : ℕ} (hx : x < 2 ^ 16) (hd : d < 2 ^ 16) :
    alignPos ((x + d) % 2 ^ 16) = alignPos x ↔ ((x + 3) % 4 + d) % 2 ^ 16 < 4 := by
  have hr : ∀ y < 2 ^ 16, alignPos y = (y + 7) / 4 * 4 % 2 ^ 16 := by
    intro y hy
    unfold alignPos
    rw [Nat.mod_eq_of_lt (b := rxBufLen)]
    unfold rxBufLen
    omega
  rw [hr _ (Nat.mod_lt _ (by decide)), hr x hx]
  omega

section Drop

variable {ring : Buf} {rxPos : ℕ}

theorem accepted_pos (hpos : rxPos < 2 ^ 16) (hok : ring.u16 rxPos &&& isrRok ≠ 0)
    (hlen : 4 ≤ ring.u16 (advance rxPos 2)) :
    (rtlRxInthandler rxPos [⟨ring, true⟩]).2 =
      alignPos ((rxPos + ring.u16 (advance rxPos 2)) % 2 ^ 16) := by
  have hl := packetLength_eq hlen (ring.u16_lt (advance rxPos 2))
  have hpad : ethPadSize ≤ ring.u16 (advance rxPos 2) - 2 := by
    unfold ethPadSize
    omega
  obtain ⟨h1, h2⟩ := pbufChain_spec hpad
  simp only [rtlRxInthandler, hok, if_false, if_true, hl]
  have he : ((rxPos + 4) % 2 ^ 16 + (ring.u16 (advance rxPos 2) - 2 - ethPadSize)) % 2 ^ 16 =
      (rxPos + ring.u16 (advance rxPos 2)) % 2 ^ 16 := by
    unfold ethPadSize
    omega
  rw [takeChain_pos ring _ _ (advance_lt _ _) h2, h1, advance_header hpos, he]

/-- The position after a dropped packet: the old position is added once too often. -/
theorem dropped_pos (hpos : rxPos < 2 ^ 16) (hok : ring.u16 rxPos &&& isrRok ≠ 0)
    (hlen : 4 ≤ ring.u16 (advance rxPos 2)) :
    (rtlRxInthandler rxPos [⟨ring, false⟩]).2 =
      alignPos (((rxPos + 4) % 2 ^ 16 +
        ((rxPos + 4) % 2 ^ 16 + (ring.u16 (advance rxPos 2) - 2)) % rxBufLen) % 2 ^ 16) := by
  have hl := packetLength_eq hlen (ring.u16_lt (advance rxPos 2))
  simp only [rtlRxInthandler, hok, if_false, hl, Bool.false_eq_true, advance_header hpos]

/-- A dropped packet leaves the position where an accepted one does exactly when the ring does not wrap and
the position, added once too often, stays in the same dword. -/
theorem dropped_like_accepted_iff (ring : Buf) (rxPos : ℕ) (hpos : rxPos < 2 ^ 16)
    (hok : ring.u16 rxPos &&& isrRok ≠ 0) (hlen : 4 ≤ ring.u16 (advance rxPos 2)) :
    (rtlRxInthandler rxPos [⟨ring, false⟩]).2 = (rtlRxInthandler rxPos [⟨ring, true⟩]).2 ↔
      (rxPos + 4) % 2 ^ 16 + ring.u16 (advance rxPos 2) < rxBufLen + 2 ∧
        ((rxPos + ring.u16 (advance rxPos 2) + 3) % 4 + rxPos + 6) % 2 ^ 16 < 4 := by
  have hu := ring.u16_lt (advance rxPos 2)
  rw [accepted_pos hpos hok hlen, dropped_pos hpos hok hlen]
  generalize ring.u16 (advance rxPos 2) = field at *
  have hb : rxBufLen = 81921 := rfl
  by_cases hwrap : (rxPos + 4) % 2 ^ 16 + field < rxBufLen + 2
  · rw [Nat.mod_eq_of_lt (b := rxBufLen) (by omega)]
    rw [show ((rxPos + 4) % 2 ^ 16 + ((rxPos + 4) % 2 ^ 16 + (field - 2))) % 2 ^ 16 =
      ((rxPos + field) % 2 ^ 16 + (rxPos + 6) % 2 ^ 16) % 2 ^ 16 by omega]
    rw [alignPos_eq_iff (Nat.mod_lt _ (by decide)) (Nat.mod_lt _ (by decide))]
    omega
  · -- past the end the position loses the length of the ring, which is no multiple of its own range
    have hm : ((rxPos + 4) % 2 ^ 16 + (field - 2)) % rxBufLen =
      (rxPos + 4) % 2 ^ 16 + (field - 2) - 81921 := by
      rw [hb] at hwrap ⊢
      omega
    rw [hm, show ((rxPos + 4) % 2 ^ 16 + ((rxPos + 4) % 2 ^ 16 + (field - 2) - 81921)) % 2 ^ 16 =
      ((rxPos + field) % 2 ^ 16 + ((rxPos + 4) % 2 ^ 16 - 16383)) % 2 ^ 16 by omega]
    rw [alignPos_eq_iff (Nat.mod_lt _ (by decide)) (by omega)]
    omega

end Drop

/-- A ring whose bytes are all one, which reads as a good status and a length of 257. -/
def onesRing : Buf := fun _ => 1

theorem dropped_like_accepted_iff_ones :
    (rtlRxInthandler 0 [⟨onesRing, false⟩]).2 = (rtlRxInthandler 0 [⟨onesRing, true⟩]).2 ↔
      (0 + 4) % 2 ^ 16 + onesRing.u16 (advance 0 2) < rxBufLen + 2 ∧
        ((0 + onesRing.u16 (advance 0 2) + 3) % 4 + 0 + 6) % 2 ^ 16 < 4 :=
  dropped_like_accepted_iff onesRing 0 (by decide) (by decide) (by decide)

/-- From the start of the ring a dropped packet of 257 bytes leaves the position four bytes too far on. -/
theorem dropped_ones_misplaced :
    (rtlRxInthandler 0 [⟨onesRing, true⟩]).2 = 264 ∧ (rtlRxInthandler 0 [⟨onesRing, false⟩]).2 = 268 := by
  refine ⟨?_, ?_⟩
  · rw [accepted_pos (by decide) (by decide) (by decide)]
    decide
  · rw [dropped_pos (by decide) (by decide) (by decide)]
    decide

end ChiffOS.Net
