import Quest.Basic
import Quest.Lib.Reach

/-! The descriptor rings of the e1000 driver beside the card, `drivers/net/e1000.c`.  The events are
rounds of the driver's loops: between two of them the card may complete descriptors. -/
namespace Quest.Drivers.E1000

open Quest Lib.Reach List Function

/-- An index into one of the rings, whose `TDESC_COUNT` and `RDESC_COUNT` are 8. -/
abbrev Slot := Fin 8
abbrev Frame := List UInt8

def span (head tail : Slot) : List Slot :=
  (List.range (tail - head).val).map fun offset => head + Fin.ofNat 8 offset

theorem slot_succ_inj : ∀ i j : Slot, i + 1 = j + 1 → i = j := by decide

theorem span_snoc : ∀ head tail : Slot, tail + 1 ≠ head →
    span head (tail + 1) = span head tail ++ [tail] := by decide

theorem span_cons : ∀ head tail : Slot, head ≠ tail →
    span head tail = head :: span (head + 1) tail := by decide

theorem tail_notMem_span : ∀ head tail : Slot, tail ∉ span head tail := by decide

theorem head_notMem_span : ∀ head tail : Slot, head ∉ span (head + 1) tail := by decide

theorem head_mem_span : ∀ head tail : Slot, head ∈ span head tail ↔ head ≠ tail := by decide

theorem card_span_full : ∀ head tail : Slot, tail + 1 = head →
    (span head tail).toFinset.card = 7 := by decide

/-- The transmit side.  `frame` is the buffer of each slot up to its descriptor's length;
`accepted` and `sent` are the frames the driver took and the card put on the wire. -/
structure Tx where
  cmd : Slot → Bool
  dd : Slot → Bool
  frame : Slot → Frame
  tdh : Slot
  tdt : Slot
  txCnt : Nat
  accepted : List Frame
  sent : List Frame

def Tx.handOver (tx : Tx) (frame : Frame) : Tx :=
  { tx with
    frame := update tx.frame tx.tdt frame
    cmd := update tx.cmd tx.tdt true
    tdt := tx.tdt + 1
    txCnt := (tx.txCnt + 1) % 2 ^ 32
    accepted := tx.accepted ++ [frame] }

/-- `e1000_transmit`.  A negative length passes the test against `TBUF_SIZE` and is a count of
more than 2 GiB to `memcpy`. -/
def Tx.transmit (tx : Tx) (buffer : Nat → UInt8) (len : Int) : Except Fault (Int × Tx) :=
  if len > 2048 then .ok (0, tx)
  else if tx.txCnt ≥ 7 then .ok (0, tx)
  else if len < 0 then .error .outOfBounds
  else .ok (len, tx.handOver ((List.range len.toNat).map buffer))

/-- The card sends the frame at its head and sets `TDESC_STA_DD` there. -/
def Tx.complete (tx : Tx) : Tx :=
  if tx.tdh = tx.tdt then tx
  else { tx with
    dd := update tx.dd tx.tdh true
    sent := tx.sent ++ [tx.frame tx.tdh]
    tdh := tx.tdh + 1 }

/-- Round `i` of the loop in `handle_tx`. -/
def Tx.handleTx (tx : Tx) (i : Slot) : Tx :=
  if tx.cmd i ∧ tx.dd i then { tx with
    cmd := update tx.cmd i false
    dd := update tx.dd i false
    txCnt := (tx.txCnt + (2 ^ 32 - 1)) % 2 ^ 32 }
  else tx

/-- The receive side.  `received` are the full packets the card put into the ring, `delivered`
those that `recv_func` was called with. -/
structure Rx where
  dd : Slot → Bool
  eop : Slot → Bool
  frame : Slot → Frame
  rdh : Slot
  rdt : Slot
  rxIdx : Nat
  received : List Frame
  delivered : List Frame

/-- The card fills the descriptor at its head, or drops the frame when it has none left. -/
def Rx.receive (rx : Rx) (eop : Bool) (frame : Frame) : Rx :=
  if rx.rdh = rx.rdt then rx
  else { rx with
    dd := update rx.dd rx.rdh true
    eop := update rx.eop rx.rdh eop
    frame := update rx.frame rx.rdh frame
    rdh := rx.rdh + 1
    received := if eop then rx.received ++ [frame] else rx.received }

def Rx.entry (rx : Rx) : Slot := Fin.ofNat 8 rx.rxIdx

def Rx.next (rx : Rx) (delivered : List Frame) : Rx :=
  { rx with
    delivered
    dd := update rx.dd rx.entry false
    eop := update rx.eop rx.entry false
    rdt := rx.rdt + 1
    rxIdx := (rx.rxIdx + 1) % 2 ^ 32 }

/-- One round of the loop in `e1000_rx_poll`, with its test. -/
def Rx.rxPoll (rx : Rx) (recvFunc : Bool) : Rx :=
  if rx.dd rx.entry then
    rx.next (if rx.eop rx.entry ∧ recvFunc then rx.delivered ++ [rx.frame rx.entry]
      else rx.delivered)
  else rx

structure Device where
  tx : Tx
  rx : Rx

def Device.reset : Device where
  tx := ⟨fun _ => false, fun _ => false, fun _ => [], 0, 0, 0, [], []⟩
  rx := ⟨fun _ => false, fun _ => false, fun _ => [], 0, 7, 0, [], []⟩

inductive Event where
  | transmit (buffer : Nat → UInt8) (len : Int)
  | complete
  | handleTx (i : Slot)
  | receive (eop : Bool) (frame : Frame)
  | rxPoll

def Device.step (recvFunc : Bool) (s : Device) : Event → Except Fault Device
  | .transmit buffer len => (s.tx.transmit buffer len).map fun (_, tx) => { s with tx }
  | .complete => .ok { s with tx := s.tx.complete }
  | .handleTx i => .ok { s with tx := s.tx.handleTx i }
  | .receive eop frame => .ok { s with rx := s.rx.receive eop frame }
  | .rxPoll => .ok { s with rx := s.rx.rxPoll recvFunc }

def inUse (cmd : Slot → Bool) : Finset Slot := Finset.univ.filter fun i => cmd i

/-- What the transmit ring is to keep: `tx_cnt` counts the descriptors in use, those the card
owns are as they were handed over, and their frames are the accepted ones not yet sent. -/
structure Tx.Correct (tx : Tx) : Prop where
  count : tx.txCnt = (inUse tx.cmd).card
  bound : tx.txCnt ≤ 7
  owned : ∀ i ∈ span tx.tdh tx.tdt, tx.cmd i = true ∧ tx.dd i = false
  returned : ∀ i ∉ span tx.tdh tx.tdt, tx.dd i = tx.cmd i
  frames : tx.accepted = tx.sent ++ (span tx.tdh tx.tdt).map tx.frame

/-- What the receive ring is to keep: `RDT` is one behind `rx_idx`, the completed descriptors are
those from there to the card's head, and their full packets are the ones not yet delivered. -/
structure Rx.Correct (rx : Rx) : Prop where
  tail : rx.rdt + 1 = rx.entry
  completed : ∀ i, rx.dd i = true ↔ i ∈ span rx.entry rx.rdh
  packets : rx.received =
    rx.delivered ++ ((span rx.entry rx.rdh).filter rx.eop).map rx.frame

def Device.Correct (s : Device) : Prop := s.tx.Correct ∧ s.rx.Correct

/-- A frame that is accepted has a length that is not negative and the slot at `TDT` has been
reclaimed; a full packet is polled with `recv_func` set. -/
def Device.Allowed (recvFunc : Bool) (s : Device) : Event → Prop
  | .transmit _ len => len ≤ 2048 → s.tx.txCnt < 7 → 0 ≤ len ∧ s.tx.cmd s.tx.tdt = false
  | .rxPoll => s.rx.dd s.rx.entry → s.rx.eop s.rx.entry → recvFunc
  | _ => True

section Transmit

variable {tx : Tx}

theorem inUse_update_true (cmd : Slot → Bool) (i : Slot) :
    inUse (update cmd i true) = insert i (inUse cmd) := by
  ext j
  by_cases h : j = i <;> simp [inUse, update_apply, h]

theorem inUse_update_false (cmd : Slot → Bool) (i : Slot) :
    inUse (update cmd i false) = (inUse cmd).erase i := by
  ext j
  by_cases h : j = i <;> simp [inUse, update_apply, h]

theorem map_update_of_notMem {α β : Type} [DecidableEq α] {slots : List α} {i : α}
    (f : α → β) (b : β) (h : i ∉ slots) : slots.map (update f i b) = slots.map f :=
  map_congr_left fun _ hj => update_of_ne (ne_of_mem_of_not_mem hj h) b f

theorem Tx.Correct.tail_ne (h : tx.Correct) (hroom : tx.txCnt < 7) : tx.tdt + 1 ≠ tx.tdh := by
  intro hfull
  have hsub : (span tx.tdh tx.tdt).toFinset ⊆ inUse tx.cmd := fun i hi => by
    simpa [inUse] using (h.owned i (mem_toFinset.1 hi)).1
  have hle := Finset.card_le_card hsub
  rw [card_span_full _ _ hfull, ← h.count] at hle
  omega

theorem Tx.Correct.handOver (h : tx.Correct) (hroom : tx.txCnt < 7) (frame : Frame)
    (hfree : tx.cmd tx.tdt = false) : (tx.handOver frame).Correct := by
  unfold Tx.handOver
  have hspan := span_snoc _ _ (h.tail_ne hroom)
  have hnot := tail_notMem_span tx.tdh tx.tdt
  have hcnt : (tx.txCnt + 1) % 2 ^ 32 = tx.txCnt + 1 := Nat.mod_eq_of_lt (by omega)
  refine ⟨?_, ?_, fun i hi => ?_, fun i hi => ?_, ?_⟩ <;> dsimp only at *
  · rw [hcnt, h.count, inUse_update_true, Finset.card_insert_of_notMem (by simp [inUse, hfree])]
  · rw [hcnt]
    exact hroom
  · rw [hspan, mem_append, mem_singleton] at hi
    rcases hi with hi | rfl
    · rw [update_of_ne (ne_of_mem_of_not_mem hi hnot)]
      exact h.owned i hi
    · exact ⟨update_self .., (h.returned _ hnot).trans hfree⟩
  · rw [hspan, mem_append, mem_singleton, not_or] at hi
    rw [update_of_ne hi.2]
    exact h.returned i hi.1
  · rw [hspan, map_append, map_update_of_notMem _ _ hnot, h.frames, map_singleton,
      update_self, append_assoc]

theorem Tx.Correct.transmit_iff (h : tx.Correct) (buffer : Nat → UInt8) (len : Int) :
    (∃ r, tx.transmit buffer len = .ok r ∧ r.2.Correct) ↔
      (len ≤ 2048 → tx.txCnt < 7 → 0 ≤ len ∧ tx.cmd tx.tdt = false) := by
  unfold Tx.transmit
  split_ifs with hlong hfull hneg
  · exact iff_of_true ⟨_, rfl, h⟩ fun hle => absurd hlong (by omega)
  · exact iff_of_true ⟨_, rfl, h⟩ fun _ hlt => absurd hfull (by omega)
  · refine iff_of_false (fun ⟨_, hok, _⟩ => nomatch hok) fun hallowed => ?_
    have := (hallowed (by omega) (by omega)).1
    omega
  · have hroom : tx.txCnt < 7 := by omega
    constructor
    · rintro ⟨_, hok, hr⟩ - -
      cases hok
      refine ⟨by omega, Bool.eq_false_iff.2 fun hused => ?_⟩
      have hcount := hr.count
      simp only [Tx.handOver] at hcount
      rw [inUse_update_true, Finset.insert_eq_of_mem (by simpa [inUse] using hused),
        ← h.count] at hcount
      omega
    · intro hallowed
      exact ⟨_, rfl, h.handOver hroom _ (hallowed (by omega) hroom).2⟩

theorem Tx.Correct.complete (h : tx.Correct) : tx.complete.Correct := by
  unfold Tx.complete
  split_ifs with hempty
  · exact h
  · have hspan := span_cons _ _ hempty
    have hhead := h.owned tx.tdh ((head_mem_span ..).2 hempty)
    have hnot := head_notMem_span tx.tdh tx.tdt
    refine ⟨h.count, h.bound, fun i hi => ?_, fun i hi => ?_, ?_⟩ <;> dsimp only at *
    · rw [update_of_ne (ne_of_mem_of_not_mem hi hnot)]
      exact h.owned i (hspan ▸ mem_cons_of_mem _ hi)
    · by_cases hih : i = tx.tdh
      · rw [hih, update_self, hhead.1]
      · rw [update_of_ne hih]
        refine h.returned i fun hmem => ?_
        rw [hspan] at hmem
        exact (mem_cons.1 hmem).elim hih hi
    · rw [h.frames, hspan, map_cons, append_assoc, singleton_append]

theorem Tx.Correct.handleTx (h : tx.Correct) (i : Slot) : (tx.handleTx i).Correct := by
  unfold Tx.handleTx
  split_ifs with hdone
  · have hmem : i ∈ inUse tx.cmd := by simpa [inUse] using hdone.1
    have hpos := Finset.card_pos.2 ⟨i, hmem⟩
    have hcard := Finset.card_erase_of_mem hmem
    have hcount := h.count
    have hbound := h.bound
    have hcnt : (tx.txCnt + (2 ^ 32 - 1)) % 2 ^ 32 = tx.txCnt - 1 := by omega
    refine ⟨?_, ?_, fun j hj => ?_, fun j hj => ?_, h.frames⟩ <;> dsimp only at *
    · rw [hcnt, inUse_update_false, hcard, h.count]
    · omega
    · have hji : j ≠ i := fun hji => by simp [← hji, (h.owned j hj).2] at hdone
      rw [update_of_ne hji, update_of_ne hji]
      exact h.owned j hj
    · by_cases hji : j = i
      · rw [hji, update_self, update_self]
      · rw [update_of_ne hji, update_of_ne hji]
        exact h.returned j hj
  · exact h

end Transmit

section Receive

variable {rx : Rx}

theorem filter_update_of_notMem {α : Type} [DecidableEq α] {slots : List α} {i : α}
    (p : α → Bool) (b : Bool) (h : i ∉ slots) : slots.filter (update p i b) = slots.filter p :=
  filter_congr fun _ hj => update_of_ne (ne_of_mem_of_not_mem hj h) b p

theorem Rx.Correct.receive (h : rx.Correct) (eop : Bool) (frame : Frame) :
    (rx.receive eop frame).Correct := by
  unfold Rx.receive
  by_cases hfull : rx.rdh = rx.rdt
  · rwa [if_pos hfull]
  · rw [if_neg hfull]
    have hspan : span rx.entry (rx.rdh + 1) = span rx.entry rx.rdh ++ [rx.rdh] :=
      span_snoc _ _ fun heq => hfull (slot_succ_inj _ _ (heq.trans h.tail.symm))
    have hnot := tail_notMem_span rx.entry rx.rdh
    refine ⟨h.tail, fun i => ?_, ?_⟩
    · show update rx.dd rx.rdh true i = true ↔ i ∈ span rx.entry (rx.rdh + 1)
      rw [hspan, mem_append, mem_singleton, update_apply, ← h.completed i]
      split_ifs with hi <;> simp [hi]
    · show (if eop then rx.received ++ [frame] else rx.received) = rx.delivered ++
        ((span rx.entry (rx.rdh + 1)).filter (update rx.eop rx.rdh eop)).map
          (update rx.frame rx.rdh frame)
      rw [hspan, filter_append, filter_update_of_notMem _ _ hnot, map_append,
        map_update_of_notMem _ _ fun hmem => hnot (mem_of_mem_filter hmem), h.packets]
      cases eop <;> simp [update_self]

theorem Rx.entry_next (rx : Rx) (delivered : List Frame) :
    (rx.next delivered).entry = rx.entry + 1 := by
  apply Fin.ext
  simp only [Rx.next, Rx.entry, Fin.val_add, Fin.val_ofNat]
  omega

theorem Rx.Correct.next_iff (h : rx.Correct) (hdd : rx.dd rx.entry) (delivered : List Frame) :
    (rx.next delivered).Correct ↔
      delivered = rx.delivered ++ if rx.eop rx.entry then [rx.frame rx.entry] else [] := by
  have hspan := span_cons _ _ ((head_mem_span ..).1 ((h.completed _).1 hdd))
  have hnot := head_notMem_span rx.entry rx.rdh
  have hpackets : (rx.next delivered).received =
      (rx.delivered ++ if rx.eop rx.entry then [rx.frame rx.entry] else []) ++
        ((span (rx.entry + 1) rx.rdh).filter (rx.next delivered).eop).map rx.frame := by
    show rx.received = _
    rw [h.packets, hspan, filter_cons]
    simp only [Rx.next, filter_update_of_notMem _ _ hnot]
    split_ifs <;> simp
  constructor
  · intro hnext
    have := hnext.packets
    rw [hpackets, Rx.entry_next] at this
    exact (append_cancel_right this).symm
  · intro hdelivered
    refine ⟨?_, fun i => ?_, ?_⟩
    · rw [Rx.entry_next, ← h.tail]
      rfl
    · show update rx.dd rx.entry false i = true ↔ i ∈ span (rx.next delivered).entry rx.rdh
      rw [Rx.entry_next, update_apply]
      split_ifs with hi
      · simp [hi, hnot]
      · rw [h.completed, hspan, mem_cons, or_iff_right hi]
    · rw [hpackets, ← hdelivered, Rx.entry_next]
      rfl

theorem Rx.Correct.rxPoll_iff (h : rx.Correct) (recvFunc : Bool) :
    (rx.rxPoll recvFunc).Correct ↔ (rx.dd rx.entry → rx.eop rx.entry → recvFunc) := by
  unfold Rx.rxPoll
  split_ifs with hdd heop
  · rw [h.next_iff hdd, if_pos heop.1]
    simp [heop.2]
  · rw [h.next_iff hdd]
    cases hfull : rx.eop rx.entry <;> cases recvFunc <;> simp_all
  · exact iff_of_true h fun hdd' => absurd hdd' hdd

end Receive

theorem Device.reset_correct : Device.reset.Correct :=
  ⟨⟨by decide, by decide, by decide, by decide, rfl⟩, ⟨by decide, by decide, rfl⟩⟩

theorem Device.Correct.step_iff {s : Device} (h : s.Correct) (recvFunc : Bool) (e : Event) :
    (∃ s', s.step recvFunc e = .ok s' ∧ s'.Correct) ↔ s.Allowed recvFunc e := by
  cases e with
  | transmit buffer len =>
    refine Iff.trans ?_ (h.1.transmit_iff buffer len)
    constructor
    · rintro ⟨s', hok, hs'⟩
      obtain ⟨r, hr, rfl⟩ := map_eq_ok.1 hok
      exact ⟨r, hr, hs'.1⟩
    · rintro ⟨r, hr, hcorrect⟩
      exact ⟨_, map_eq_ok.2 ⟨r, hr, rfl⟩, hcorrect, h.2⟩
  | complete => exact iff_of_true ⟨_, rfl, h.1.complete, h.2⟩ trivial
  | handleTx i => exact iff_of_true ⟨_, rfl, h.1.handleTx i, h.2⟩ trivial
  | receive eop frame => exact iff_of_true ⟨_, rfl, h.1, h.2.receive eop frame⟩ trivial
  | rxPoll =>
    refine Iff.trans ?_ (h.2.rxPoll_iff recvFunc)
    constructor
    · rintro ⟨s', hok, hs'⟩
      cases hok
      exact hs'.2
    · exact fun hrx => ⟨_, rfl, h.1, hrx⟩

/-- As long as every event was allowed the rings are correct, and the next event keeps them so
exactly when it is allowed. -/
theorem rings_correct_iff (recvFunc : Bool) (s : Device)
    (hreach : Reaches (Device.step recvFunc) (Device.Allowed recvFunc) .reset s) :
    s.Correct ∧
      ∀ e, (∃ s', s.step recvFunc e = .ok s' ∧ s'.Correct) ↔ s.Allowed recvFunc e := by
  have hs : s.Correct := hreach.invariant Device.Correct Device.reset_correct
    fun s s' e h hallowed hok => by
      obtain ⟨next, hnext, hcorrect⟩ := (h.step_iff recvFunc e).2 hallowed
      exact Except.ok.inj (hok.symm.trans hnext) ▸ hcorrect
  exact ⟨hs, hs.step_iff recvFunc⟩

theorem rings_correct_iff_reset : (∃ s', Device.reset.step true .rxPoll = .ok s' ∧ s'.Correct) ↔
    Device.reset.Allowed true .rxPoll :=
  (rings_correct_iff true .reset .refl).2 .rxPoll

/-- Four frames are handed over, and the card sends three of them after `handle_tx` has looked at
the first: it reclaims the second and the third only.  The fifth of the frames that follow goes
into the first slot again, where `TDESC_STA_DD` is still set: the card owns it, the next
`handle_tx` would reclaim it, and `tx_cnt` is seven with six descriptors in use. -/
theorem slot_reused_unreclaimed : ∃ s,
    (List.replicate 4 (.transmit (fun _ => 0) 60) ++ .handleTx 0 :: List.replicate 3 .complete ++
      (List.finRange 7).map (fun i => .handleTx i.succ) ++
      List.replicate 5 (.transmit (fun _ => 0) 60) : List Event).foldlM (Device.step true) .reset =
        .ok s ∧
    s.tx.txCnt = 7 ∧ (inUse s.tx.cmd).card = 6 ∧ 0 ∈ span s.tx.tdh s.tx.tdt ∧
    s.tx.dd 0 = true := by
  refine ⟨_, rfl, rfl, ?_, ?_, rfl⟩ <;> decide

end Quest.Drivers.E1000
