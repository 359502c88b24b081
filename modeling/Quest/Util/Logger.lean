import Quest.Basic
import Quest.Lib.Reach
import Quest.Lib.Ring

/-! The ring between `logger_putc` and the logger thread, read by read and write by write:
`kernel/util/logger.c`. -/
namespace Quest.Util.Logger

open Quest.Lib Reach Ring List Function

def loggerBufSize : Nat := 65536

def loggerBufModMask : Nat := loggerBufSize - 1

inductive Producer where
  | outside
  | entered (c : UInt8)
  | computed (c : UInt8) (newhead : Nat)
  | full
  | room (c : UInt8) (newhead : Nat)
  | located (c : UInt8) (newhead slot : Nat)
  | stored (c : UInt8) (newhead : Nat)
  deriving DecidableEq

inductive Consumer where
  | looping
  | computed (newtail : Nat)
  | waiting (newtail : Nat)
  | read (newtail : Nat) (c : UInt8)
  | returned (c : UInt8)
  | reporting
  deriving DecidableEq

/-- The variables of the ring, and the characters that were stored and returned. -/
structure State where
  head : Nat
  tail : Nat
  buf : Nat → UInt8
  dropped : Bool
  producer : Producer
  consumer : Consumer
  accepted : List UInt8
  got : List UInt8

def initial (buf : Nat → UInt8) : State :=
  ⟨0, loggerBufSize - 1, buf, false, .outside, .looping, [], []⟩

/-- The next read or write of `logger_putc`. -/
def produce (s : State) : Except Fault State :=
  match s.producer with
  | .outside => .ok s
  | .entered c => .ok { s with producer := .computed c ((s.head + 1) &&& loggerBufModMask) }
  | .computed c newhead =>
      if newhead = s.tail then .ok { s with producer := .full }
      else .ok { s with producer := .room c newhead }
  | .full => .ok { s with dropped := true, producer := .outside }
  | .room c newhead => .ok { s with producer := .located c newhead s.head }
  | .located c newhead slot =>
      if slot < loggerBufSize then
        .ok { s with buf := update s.buf slot c, producer := .stored c newhead }
      else .error .outOfBounds
  | .stored c newhead =>
      .ok { s with head := newhead, accepted := s.accepted ++ [c], producer := .outside }

def consume (s : State) : Except Fault State :=
  match s.consumer with
  | .looping => .ok { s with consumer := .computed ((s.tail + 1) &&& loggerBufModMask) }
  | .computed newtail =>
      if newtail = s.head then .ok { s with consumer := .returned 0 }
      else .ok { s with consumer := .waiting newtail }
  | .waiting newtail =>
      if newtail < loggerBufSize then .ok { s with consumer := .read newtail (s.buf newtail) }
      else .error .outOfBounds
  | .read newtail c => .ok { s with tail := newtail, got := s.got ++ [c], consumer := .returned c }
  | .returned _ => .ok { s with consumer := if s.dropped then .reporting else .looping }
  | .reporting => .ok { s with dropped := false, consumer := .looping }

inductive Event where
  | putc (c : UInt8)
  | produce
  | consume

def step (s : State) : Event → Except Fault State
  | .putc c => .ok { s with producer := .entered c }
  | .produce => produce s
  | .consume => consume s

/-- One producer, which puts no NUL. -/
def Enabled (s : State) : Event → Prop
  | .putc c => s.producer = .outside ∧ c ≠ 0
  | .produce => True
  | .consume => True

instance (s : State) : (e : Event) → Decidable (Enabled s e)
  | .putc _ => inferInstanceAs (Decidable (_ ∧ _))
  | .produce => isTrue trivial
  | .consume => isTrue trivial

def ProducerKnows (s : State) (pending : List UInt8) : Producer → Prop
  | .outside => True
  | .entered c => c ≠ 0
  | .computed c newhead => c ≠ 0 ∧ newhead = advance loggerBufSize s.head
  | .full => True
  | .room c newhead =>
      c ≠ 0 ∧ newhead = advance loggerBufSize s.head ∧ pending.length + 2 < loggerBufSize
  | .located c newhead slot =>
      c ≠ 0 ∧ newhead = advance loggerBufSize s.head ∧ pending.length + 2 < loggerBufSize ∧
        slot = s.head
  | .stored c newhead =>
      c ≠ 0 ∧ newhead = advance loggerBufSize s.head ∧ pending.length + 2 < loggerBufSize ∧
        s.buf s.head = c

def ConsumerKnows (s : State) (pending : List UInt8) : Consumer → Prop
  | .computed newtail => newtail = advance loggerBufSize s.tail
  | .waiting newtail => newtail = advance loggerBufSize s.tail ∧ pending ≠ []
  | .read newtail c => newtail = advance loggerBufSize s.tail ∧ pending.head? = some c
  | _ => True

/-- The accepted characters that the thread has not got are in the ring, in order. -/
structure Inv (s : State) (pending : List UInt8) : Prop where
  tail_lt : s.tail < loggerBufSize
  holds : Holds loggerBufSize s.buf (advance loggerBufSize s.tail) pending
  head_eq : s.head = slot loggerBufSize (advance loggerBufSize s.tail) pending.length
  room : pending.length + 2 ≤ loggerBufSize
  fifo : s.accepted = s.got ++ pending
  nonzero : ∀ c ∈ s.accepted, c ≠ 0
  producer : ProducerKnows s pending s.producer
  consumer : ConsumerKnows s pending s.consumer

variable {s s' : State} {pending : List UInt8} {i : Nat}

theorem mask_eq (hi : i < loggerBufSize) :
    (i + 1) &&& loggerBufModMask = advance loggerBufSize i := by
  rw [loggerBufModMask, show loggerBufSize - 1 = 2 ^ 16 - 1 from rfl,
    Nat.and_two_pow_sub_one_eq_mod]
  unfold advance
  unfold loggerBufSize at *
  split <;> omega

namespace Inv

variable (h : Inv s pending)
include h

theorem head_lt : s.head < loggerBufSize := by
  rw [h.head_eq]
  exact slot_lt h.holds.head_lt h.holds.fits

theorem advance_head : advance loggerBufSize s.head =
    slot loggerBufSize (advance loggerBufSize s.tail) (pending.length + 1) := by
  have hroom := h.room
  rw [h.head_eq, advance_slot h.holds.head_lt (by omega)]

theorem tail_eq :
    s.tail = slot loggerBufSize (advance loggerBufSize s.tail) (loggerBufSize - 1) := by
  have htail := h.tail_lt
  unfold slot advance
  split <;> split <;> omega

theorem full_iff :
    advance loggerBufSize s.head = s.tail ↔ pending.length + 2 = loggerBufSize := by
  have hroom := h.room
  constructor
  · intro heq
    have hslots := slot_injective (by omega) (by omega)
      (h.advance_head.symm.trans (heq.trans h.tail_eq))
    omega
  · intro hfull
    rw [h.advance_head, show pending.length + 1 = loggerBufSize - 1 by omega]
    exact h.tail_eq.symm

theorem empty_iff : advance loggerBufSize s.tail = s.head ↔ pending = [] := by
  have hroom := h.room
  constructor
  · intro heq
    have hslots := slot_injective (by omega) (by omega)
      ((slot_zero h.holds.head_lt).trans (heq.trans h.head_eq))
    exact length_eq_zero_iff.mp hslots.symm
  · rintro rfl
    rw [h.head_eq, length_nil, slot_zero h.holds.head_lt]

theorem setProducer {dropped : Bool} {p : Producer}
    (hp : ProducerKnows s pending p) :
    Inv { s with dropped := dropped, producer := p } pending where
  __ := h
  producer := by cases p <;> exact hp
  consumer := by
    have hc := h.consumer
    cases hs : s.consumer <;> rw [hs] at hc <;> exact hc

theorem setConsumer {dropped : Bool} {c : Consumer}
    (hc : ConsumerKnows s pending c) :
    Inv { s with dropped := dropped, consumer := c } pending where
  __ := h
  producer := by
    have hp := h.producer
    cases hs : s.producer <;> rw [hs] at hp <;> exact hp
  consumer := by cases c <;> exact hc

theorem store {c : UInt8} {newhead slot : Nat}
    (hp : s.producer = .located c newhead slot) :
    Inv { s with buf := update s.buf slot c, producer := .stored c newhead } pending := by
  have hknows := h.producer
  rw [hp] at hknows
  obtain ⟨hc, hnew, hlt, rfl⟩ := hknows
  exact { h with
    holds := by
      apply h.holds.congr_behind (by omega)
      intro i hi
      rw [← h.head_eq] at hi
      exact update_of_ne hi _ _
    producer := ⟨hc, hnew, hlt, update_self _ _ _⟩
    consumer := by
      have hc := h.consumer
      cases hs : s.consumer <;> rw [hs] at hc <;> exact hc }

theorem accept {c : UInt8} {newhead : Nat}
    (hp : s.producer = .stored c newhead) :
    Inv { s with head := newhead, accepted := s.accepted ++ [c], producer := .outside }
      (pending ++ [c]) := by
  have hknows := h.producer
  rw [hp] at hknows
  obtain ⟨hc, rfl, hlt, hcell⟩ := hknows
  rw [h.head_eq] at hcell
  exact { h with
    holds := h.holds.push (by omega) hcell fun _ _ _ => rfl
    head_eq := by rw [length_append, length_singleton, h.advance_head]
    room := by
      rw [length_append, length_singleton]
      omega
    fifo := by rw [h.fifo, append_assoc]
    nonzero := by
      intro x hx
      rcases mem_append.mp hx with hx | hx
      · exact h.nonzero x hx
      · rw [mem_singleton.mp hx]
        exact hc
    producer := trivial
    consumer := by
      have hk := h.consumer
      cases hs : s.consumer <;> rw [hs] at hk
      case waiting => exact ⟨hk.1, by simp⟩
      case read => exact ⟨hk.1, by rw [head?_append, hk.2]; rfl⟩
      all_goals exact hk }

theorem deliver {c : UInt8} {newtail : Nat}
    (hc : s.consumer = .read newtail c) :
    Inv { s with tail := newtail, got := s.got ++ [c], consumer := .returned c } pending.tail := by
  have hknows := h.consumer
  rw [hc] at hknows
  obtain ⟨rfl, hfirst⟩ := hknows
  obtain ⟨rest, rfl⟩ := head?_eq_some_iff.mp hfirst
  have hroom := h.room
  rw [length_cons] at hroom
  exact {
    tail_lt := h.holds.head_lt
    holds := h.holds.pop
    head_eq := by
      rw [h.head_eq, length_cons, tail_cons, slot_advance h.holds.head_lt (by omega)]
    room := by
      rw [tail_cons]
      omega
    fifo := by rw [h.fifo, tail_cons, append_assoc, singleton_append]
    nonzero := h.nonzero
    producer := by
      have hk := h.producer
      cases hs : s.producer <;> rw [hs] at hk <;>
        simp only [ProducerKnows, length_cons, tail_cons] at hk ⊢
      case room => exact ⟨hk.1, hk.2.1, by omega⟩
      case located => exact ⟨hk.1, hk.2.1, by omega, hk.2.2.2⟩
      case stored => exact ⟨hk.1, hk.2.1, by omega, hk.2.2.2⟩
      all_goals exact hk
    consumer := trivial }

theorem produce : ∃ s' pending', Logger.produce s = .ok s' ∧ Inv s' pending' ∧
    (s'.producer = .full → s.producer = .full ∨ pending.length + 2 = loggerBufSize) := by
  have hknows := h.producer
  unfold Logger.produce
  cases hp : s.producer with
  | outside => exact ⟨s, pending, rfl, h, by simp [hp]⟩
  | entered c =>
    rw [hp] at hknows
    exact ⟨_, pending, rfl, h.setProducer ⟨hknows, mask_eq h.head_lt⟩, by simp⟩
  | computed c newhead =>
    rw [hp] at hknows
    obtain ⟨hc, rfl⟩ := hknows
    have hroom := h.room
    dsimp only
    split
    · rename_i heq
      exact ⟨_, pending, rfl, h.setProducer trivial, fun _ => .inr (h.full_iff.mp heq)⟩
    · rename_i hne
      have hlt : pending.length + 2 < loggerBufSize :=
        Nat.lt_of_le_of_ne hroom fun heq => hne (h.full_iff.mpr heq)
      exact ⟨_, pending, rfl, h.setProducer ⟨hc, rfl, hlt⟩, by simp⟩
  | full => exact ⟨_, pending, rfl, h.setProducer trivial, by simp⟩
  | room c newhead =>
    rw [hp] at hknows
    exact ⟨_, pending, rfl, h.setProducer ⟨hknows.1, hknows.2.1, hknows.2.2, rfl⟩, by simp⟩
  | located c newhead slot =>
    have hslot : slot < loggerBufSize := by
      rw [hp] at hknows
      exact hknows.2.2.2 ▸ h.head_lt
    dsimp only
    rw [if_pos hslot]
    exact ⟨_, pending, rfl, h.store hp, by simp⟩
  | stored c newhead => exact ⟨_, _, rfl, h.accept hp, by simp⟩

theorem consume : ∃ s' pending', Logger.consume s = .ok s' ∧ Inv s' pending' ∧
    (s'.consumer = .returned 0 → s.consumer = .returned 0 ∨ pending = []) := by
  have hknows := h.consumer
  unfold Logger.consume
  cases hc : s.consumer with
  | looping =>
    exact ⟨_, pending, rfl, h.setConsumer (mask_eq h.tail_lt), by simp⟩
  | computed newtail =>
    rw [hc] at hknows
    obtain rfl := hknows
    dsimp only
    split
    · rename_i heq
      exact ⟨_, pending, rfl, h.setConsumer trivial, fun _ => .inr (h.empty_iff.mp heq)⟩
    · rename_i hne
      exact ⟨_, pending, rfl, h.setConsumer ⟨rfl, fun hnil => hne (h.empty_iff.mpr hnil)⟩, by simp⟩
  | waiting newtail =>
    rw [hc] at hknows
    obtain ⟨rfl, hne⟩ := hknows
    dsimp only
    rw [if_pos h.holds.head_lt]
    obtain ⟨c, rest, rfl⟩ := exists_cons_of_ne_nil hne
    refine ⟨_, c :: rest, rfl, h.setConsumer ⟨rfl, ?_⟩, by simp⟩
    rw [h.holds.first, head?_cons]
  | read newtail c =>
    rw [hc] at hknows
    obtain ⟨rest, hpend⟩ := head?_eq_some_iff.mp hknows.2
    have hne : c ≠ 0 := h.nonzero c (by simp [h.fifo, hpend])
    exact ⟨_, _, rfl, h.deliver hc, fun hret => absurd (Consumer.returned.inj hret) hne⟩
  | returned c =>
    refine ⟨_, pending, rfl, h.setConsumer ?_, ?_⟩
    · split <;> trivial
    · split <;> simp
  | reporting => exact ⟨_, pending, rfl, h.setConsumer trivial, by simp⟩

theorem step {e : Event} (hon : Enabled s e) :
    ∃ s' pending', Logger.step s e = .ok s' ∧ Inv s' pending' := by
  cases e with
  | putc c => exact ⟨_, pending, rfl, h.setProducer hon.2⟩
  | produce =>
    obtain ⟨s', pending', hok, hinv, _⟩ := h.produce
    exact ⟨s', pending', hok, hinv⟩
  | consume =>
    obtain ⟨s', pending', hok, hinv, _⟩ := h.consume
    exact ⟨s', pending', hok, hinv⟩

end Inv

theorem inv_initial (buf : Nat → UInt8) : Inv (initial buf) [] where
  tail_lt := Nat.sub_lt (by decide) (by decide)
  holds := Holds.empty (by decide) buf
  head_eq := by simp [initial, slot, advance, loggerBufSize]
  room := by decide
  fifo := rfl
  nonzero := nofun
  producer := trivial
  consumer := trivial

theorem inv_of_reaches {buf : Nat → UInt8} (hrun : Reaches step Enabled (initial buf) s) :
    ∃ pending, Inv s pending := by
  apply hrun.invariant (fun s => ∃ pending, Inv s pending) ⟨[], inv_initial buf⟩
  rintro s s' e ⟨pending, h⟩ hon hok
  obtain ⟨s1, pending', hok', hinv⟩ := h.step hon
  rw [hok, Except.ok.injEq] at hok'
  exact hok' ▸ ⟨pending', hinv⟩

theorem produce_consumer (hok : produce s = .ok s') : s'.consumer = s.consumer := by
  unfold produce at hok
  cases hp : s.producer <;> simp only [hp] at hok
  case computed c newhead =>
    split at hok <;> cases hok <;> rfl
  case located c newhead slot =>
    split at hok <;> cases hok
    rfl
  all_goals
    cases hok
    rfl

theorem consume_producer (hok : consume s = .ok s') : s'.producer = s.producer := by
  unfold consume at hok
  cases hc : s.consumer <;> simp only [hc] at hok
  case computed newtail =>
    split at hok <;> cases hok <;> rfl
  case waiting newtail =>
    split at hok <;> cases hok
    rfl
  all_goals
    cases hok
    rfl

/-- The thread gets the accepted characters in order, the others are in the ring, a character is
dropped only when the ring is full, the thread finds nothing only when it is empty, and the
indices stay in the buffer. -/
theorem logger_ring_fifo {buf : Nat → UInt8} (hrun : Reaches step Enabled (initial buf) s) :
    s.head < loggerBufSize ∧ s.tail < loggerBufSize ∧
    (∃ pending, s.accepted = s.got ++ pending ∧ pending.length ≤ loggerBufSize - 2 ∧
      Holds loggerBufSize s.buf (advance loggerBufSize s.tail) pending) ∧
    (∀ c ∈ s.got, c ≠ 0) ∧
    (∀ e, Enabled s e → ∃ s', step s e = .ok s' ∧
      (s'.producer = .full → s.producer ≠ .full →
        s.accepted.length = s.got.length + (loggerBufSize - 2)) ∧
      (s'.consumer = .returned 0 → s.consumer ≠ .returned 0 → s.accepted = s.got)) := by
  obtain ⟨pending, h⟩ := inv_of_reaches hrun
  have hroom := h.room
  refine ⟨h.head_lt, h.tail_lt, ⟨pending, h.fifo, by omega, h.holds⟩, ?_, ?_⟩
  · intro c hc
    exact h.nonzero c (h.fifo ▸ List.mem_append_left pending hc)
  · intro e henabled
    cases e with
    | putc c => exact ⟨_, rfl, by simp, fun hc hc' => absurd hc hc'⟩
    | produce =>
      obtain ⟨s', _, hok, _, hfull⟩ := h.produce
      refine ⟨s', hok, fun hs' hs => ?_, fun hs' hs => ?_⟩
      · have := (hfull hs').resolve_left hs
        rw [h.fifo, List.length_append]
        omega
      · exact absurd (produce_consumer hok ▸ hs') hs
    | consume =>
      obtain ⟨s', _, hok, _, hempty⟩ := h.consume
      refine ⟨s', hok, fun hs' hs => ?_, fun hs' hs => ?_⟩
      · exact absurd (consume_producer hok ▸ hs') hs
      · rw [h.fifo, (hempty hs').resolve_left hs, List.append_nil]

def oneCharacter : List Event :=
  .putc 65 :: List.replicate 5 .produce ++ List.replicate 4 .consume

theorem logger_ring_fifo_one_character :
    ∃ s, Reaches step Enabled (initial fun _ => 0) s ∧ s.got = [65] ∧ s.head < loggerBufSize ∧
      ∃ pending, s.accepted = [65] ++ pending := by
  have hcomputed : (replay step Enabled (initial fun _ => 0) oneCharacter).map State.got =
      some [65] := by decide +kernel
  obtain ⟨s, hrun, hgot⟩ := Option.map_eq_some_iff.mp hcomputed
  have hreach := Reaches.refl.replay hrun
  obtain ⟨hhead, _, ⟨pending, hfifo, _⟩, _⟩ := logger_ring_fifo hreach
  exact ⟨s, hreach, hgot, hhead, pending, hgot ▸ hfifo⟩

end Quest.Util.Logger
