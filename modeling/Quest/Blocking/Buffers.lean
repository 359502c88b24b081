import Quest.Blocking.Discipline
import Quest.Lib.Memory
import Quest.Lib.Ring

/-! The circular buffers of `util/circular.c`, down to their bytes. -/
namespace Quest.Blocking.Buffers

open Lib.Memory Lib.Reach Lib.Ring Sched.Hooks Sched.Core Sched.Queue Sched.Pibs Model Apart OneQueue List Function
open Discipline

variable {σ τ ι κ : Type} {n : Nat}

/-- `circular`, without its lock and its queues, which are in the kernel. -/
structure CircularBuffer where
  buffer : Nat
  insertPtr : Nat
  removePtr : Nat
  bufferEnd : Nat
  numElts : Nat
  eltSize : Nat
  curCount : Nat

def circularInit (buffer numElts eltSize : Nat) : CircularBuffer where
  buffer := buffer
  insertPtr := buffer
  removePtr := buffer
  bufferEnd := buffer + numElts * eltSize
  numElts := numElts
  eltSize := eltSize
  curCount := 0

structure State (σ τ ι κ : Type) (n : Nat) where
  kernel : Kernel σ τ ι κ Unit n
  rings : κ → CircularBuffer
  mem : Nat → UInt8

variable [DecidableEq τ] [DecidableEq ι] [DecidableEq κ] [Fintype τ]

namespace State

variable (cfg : Config σ τ n)

def genericCircularInsert (x : State σ τ ι κ n) (p : Nat) (c : κ) (elt : Nat → UInt8)
    (nowait : Bool) (tsc : τ → WakeupTsc) : Except Fault (Option Int × State σ τ ι κ n) := do
  let ring := x.rings c
  if ring.curCount = ring.numElts then
    if nowait then .ok (some (-1), x)
    else do
      let k ← x.kernel.wait p (.insWaitq c)
      .ok (none, { x with kernel := k })
  else do
    let mem := blit x.mem ring.insertPtr elt ring.eltSize
    let insertPtr := ring.insertPtr + ring.eltSize
    let ring := { ring with
      insertPtr := if ring.bufferEnd ≤ insertPtr then ring.buffer else insertPtr
      curCount := ring.curCount + 1 }
    let k ← x.kernel.wakeupQueue cfg p (.remWaitq c) tsc
    .ok (some ring.curCount, ⟨k, update x.rings c ring, mem⟩)

def genericCircularRemove (x : State σ τ ι κ n) (p : Nat) (c : κ) (nowait : Bool)
    (tsc : τ → WakeupTsc) :
    Except Fault (Option (Int × Option (List UInt8)) × State σ τ ι κ n) := do
  let ring := x.rings c
  if ring.curCount = 0 then
    if nowait then .ok (some (-1, none), x)
    else do
      let k ← x.kernel.wait p (.remWaitq c)
      .ok (none, { x with kernel := k })
  else do
    let elt := bytesAt x.mem ring.removePtr ring.eltSize
    let removePtr := ring.removePtr + ring.eltSize
    let ring := { ring with
      removePtr := if ring.bufferEnd ≤ removePtr then ring.buffer else removePtr
      curCount := ring.curCount - 1 }
    let k ← x.kernel.wakeupQueue cfg p (.insWaitq c) tsc
    .ok (some (ring.curCount, some elt), ⟨k, update x.rings c ring, x.mem⟩)

end State

inductive BufferEvent (τ ι κ : Type) (n : Nat) where
  | insert (p : Nat) (c : κ) (elt : Nat → UInt8) (nowait : Bool) (tsc : τ → WakeupTsc)
  | remove (p : Nat) (c : κ) (nowait : Bool) (tsc : τ → WakeupTsc)
  | other (event : Event τ ι κ Unit n)

structure Traffic (σ τ ι κ : Type) (n : Nat) extends State σ τ ι κ n where
  inserted : κ → List (List UInt8)
  removed : κ → List (List UInt8)

def traffic (cfg : Config σ τ n) (x : Traffic σ τ ι κ n) :
    BufferEvent τ ι κ n → Except Fault (Traffic σ τ ι κ n)
  | .insert p c elt nowait tsc => do
      let (ret, y) ← x.genericCircularInsert cfg p c elt nowait tsc
      let moved := if ret.any (0 ≤ ·) then [bytesAt elt 0 (x.rings c).eltSize] else []
      .ok { x with
        toState := y
        inserted := update x.inserted c (x.inserted c ++ moved) }
  | .remove p c nowait tsc => do
      let (ret, y) ← x.genericCircularRemove cfg p c nowait tsc
      let moved := (ret.bind Prod.snd).toList
      .ok { x with
        toState := y
        removed := update x.removed c (x.removed c ++ moved) }
  | .other event => do
      let k ← step cfg x.kernel event
      .ok { x with kernel := k }

def onBuffer : Event τ ι κ Unit n → Bool
  | .circularInsert _ _ _ _ _ | .circularRemove _ _ _ _ => true
  | _ => false

def Permits (cfg : Config σ τ n) (x : Traffic σ τ ι κ n) : BufferEvent τ ι κ n → Prop
  | .insert p _ _ _ _ => Calls cfg x.kernel p
  | .remove p _ _ _ => Calls cfg x.kernel p
  | .other event => Kept cfg x.kernel event ∧ onBuffer event = false

instance [Fintype ι] [Fintype κ] {cfg : Config σ τ n} [DecidablePred (IsIdle cfg)]
    (x : Traffic σ τ ι κ n) (event : BufferEvent τ ι κ n) : Decidable (Permits cfg x event) := by
  unfold Permits Calls
  cases event <;> exact inferInstance

section Slots

structure Layout where
  buffer : Nat
  numElts : Nat
  eltSize : Nat
  numElts_pos : 0 < numElts
  eltSize_pos : 0 < eltSize

def Layout.address (l : Layout) (i : Nat) : Nat := l.buffer + i * l.eltSize

def Layout.cells (l : Layout) (mem : Nat → UInt8) (i : Nat) : List UInt8 :=
  bytesAt mem (l.address i) l.eltSize

def Layout.Apart (l l' : Layout) : Prop :=
  l.address l.numElts ≤ l'.buffer ∨ l'.address l'.numElts ≤ l.buffer

variable {l l' : Layout} {mem elt : Nat → UInt8} {i j : Nat}

theorem Layout.address_succ (l : Layout) (i : Nat) :
    l.address (i + 1) = l.address i + l.eltSize := by
  unfold Layout.address
  rw [Nat.succ_mul, add_assoc]

theorem Layout.address_le (h : i ≤ j) : l.address i ≤ l.address j :=
  Nat.add_le_add_left (Nat.mul_le_mul_right _ h) _

theorem Layout.address_le_iff : l.address i ≤ l.address j ↔ i ≤ j := by
  unfold Layout.address
  rw [Nat.add_le_add_iff_left, Nat.mul_le_mul_right_iff l.eltSize_pos]

theorem Layout.advance_address (l : Layout) (i : Nat) :
    (if l.address l.numElts ≤ l.address i + l.eltSize then l.buffer
      else l.address i + l.eltSize) = l.address (advance l.numElts i) := by
  rw [← l.address_succ, advance]
  simp only [Layout.address_le_iff]
  split
  · simp [Layout.address]
  · rfl

theorem Layout.cells_blit_self :
    l.cells (blit mem (l.address i) elt l.eltSize) i = bytesAt elt 0 l.eltSize :=
  bytesAt_blit_self

theorem Layout.cells_blit_ne (h : i ≠ j) :
    l.cells (blit mem (l.address j) elt l.eltSize) i = l.cells mem i := by
  apply bytesAt_blit_disjoint
  rw [← l.address_succ, ← l.address_succ]
  rcases Nat.lt_or_gt_of_ne h with hlt | hgt
  · exact .inl (Layout.address_le hlt)
  · exact .inr (Layout.address_le hgt)

theorem Layout.cells_blit_apart (h : l.Apart l') (hi : i < l.numElts) (hj : j < l'.numElts) :
    l.cells (blit mem (l'.address j) elt l'.eltSize) i = l.cells mem i := by
  have hlast := Layout.address_le (l := l) (Nat.succ_le_of_lt hi)
  have hlast' := Layout.address_le (l := l') (Nat.succ_le_of_lt hj)
  have hfirst := Layout.address_le (l := l) (Nat.zero_le i)
  have hfirst' := Layout.address_le (l := l') (Nat.zero_le j)
  have hzero : l.address 0 = l.buffer ∧ l'.address 0 = l'.buffer := by simp [Layout.address]
  rw [Nat.succ_eq_add_one, Layout.address_succ] at hlast hlast'
  apply bytesAt_blit_disjoint
  unfold Layout.Apart at h
  omega

structure Stored (l : Layout) (ring : CircularBuffer) (mem : Nat → UInt8) (head : Nat)
    (contents : List (List UInt8)) : Prop where
  buffer : ring.buffer = l.buffer
  bufferEnd : ring.bufferEnd = l.address l.numElts
  numElts : ring.numElts = l.numElts
  eltSize : ring.eltSize = l.eltSize
  insertPtr : ring.insertPtr = l.address (slot l.numElts head contents.length)
  removePtr : ring.removePtr = l.address head
  curCount : ring.curCount = contents.length
  holds : Holds l.numElts (l.cells mem) head contents

variable {ring : CircularBuffer} {head : Nat} {contents : List (List UInt8)}

theorem stored_init (l : Layout) (mem : Nat → UInt8) :
    Stored l (circularInit l.buffer l.numElts l.eltSize) mem 0 [] where
  buffer := rfl
  bufferEnd := rfl
  numElts := rfl
  eltSize := rfl
  insertPtr := by simp [circularInit, Layout.address, slot, l.numElts_pos]
  removePtr := by simp [circularInit, Layout.address]
  curCount := rfl
  holds := Holds.empty l.numElts_pos _

theorem Stored.insert (h : Stored l ring mem head contents) (hroom : ring.curCount ≠ ring.numElts) :
    Stored l { ring with
      insertPtr := if ring.bufferEnd ≤ ring.insertPtr + ring.eltSize then ring.buffer
        else ring.insertPtr + ring.eltSize
      curCount := ring.curCount + 1 }
      (blit mem ring.insertPtr elt ring.eltSize) head
      (contents ++ [bytesAt elt 0 ring.eltSize]) := by
  have hfits := h.holds.fits
  rw [h.curCount, h.numElts] at hroom
  have hless : contents.length < l.numElts := by omega
  refine { h with insertPtr := ?_, curCount := ?_, holds := ?_ }
  · dsimp only
    rw [h.bufferEnd, h.insertPtr, h.eltSize, h.buffer, l.advance_address,
      advance_slot h.holds.head_lt hless, length_append, length_singleton]
  · rw [length_append, length_singleton, h.curCount]
  · rw [h.insertPtr, h.eltSize]
    exact h.holds.push hless Layout.cells_blit_self fun i _ hne => Layout.cells_blit_ne hne

theorem Stored.remove {x : List UInt8} (h : Stored l ring mem head (x :: contents)) :
    bytesAt mem ring.removePtr ring.eltSize = x ∧
    Stored l { ring with
      removePtr := if ring.bufferEnd ≤ ring.removePtr + ring.eltSize then ring.buffer
        else ring.removePtr + ring.eltSize
      curCount := ring.curCount - 1 } mem (advance l.numElts head) contents := by
  have hfits := h.holds.fits
  rw [length_cons] at hfits
  refine ⟨?_, h.buffer, h.bufferEnd, h.numElts, h.eltSize, ?_, ?_, ?_, h.holds.pop⟩
  · rw [h.removePtr, h.eltSize]
    exact h.holds.first
  · rw [h.insertPtr, length_cons, slot_advance h.holds.head_lt (by omega)]
  · dsimp only
    rw [h.bufferEnd, h.removePtr, h.eltSize, h.buffer, l.advance_address]
  · rw [h.curCount, length_cons, Nat.add_sub_cancel]

theorem Stored.other (h : Stored l ring mem head contents) (hapart : l.Apart l')
    (hj : j < l'.numElts) :
    Stored l ring (blit mem (l'.address j) elt l'.eltSize) head contents where
  __ := h
  holds := h.holds.congr fun _ hi => Layout.cells_blit_apart hapart hi hj

end Slots

section Calls

variable {cfg : Config σ τ n} {x y : State σ τ ι κ n} {p : Nat} {c : κ} {elt : Nat → UInt8}
  {nowait : Bool} {tsc : τ → WakeupTsc}

theorem insert_cases {ret : Option Int}
    (h : x.genericCircularInsert cfg p c elt nowait tsc = .ok (ret, y)) :
    ((x.rings c).curCount = (x.rings c).numElts ∧
      (nowait = true ∧ ret = some (-1) ∧ y = x ∨
        nowait = false ∧ ret = none ∧ ∃ k, x.kernel.wait p (.insWaitq c) = .ok k ∧
          y = { x with kernel := k })) ∨
    ((x.rings c).curCount ≠ (x.rings c).numElts ∧
      ret = some (((x.rings c).curCount + 1 : Nat) : Int) ∧
      ∃ k, x.kernel.wakeupQueue cfg p (.remWaitq c) tsc = .ok k ∧
        y = ⟨k, update x.rings c { x.rings c with
          insertPtr := if (x.rings c).bufferEnd ≤ (x.rings c).insertPtr + (x.rings c).eltSize
            then (x.rings c).buffer else (x.rings c).insertPtr + (x.rings c).eltSize
          curCount := (x.rings c).curCount + 1 },
          blit x.mem (x.rings c).insertPtr elt (x.rings c).eltSize⟩) :=
  nowait_cases h

theorem remove_cases {ret : Option (Int × Option (List UInt8))}
    (h : x.genericCircularRemove cfg p c nowait tsc = .ok (ret, y)) :
    ((x.rings c).curCount = 0 ∧
      (nowait = true ∧ ret = some (-1, none) ∧ y = x ∨
        nowait = false ∧ ret = none ∧ ∃ k, x.kernel.wait p (.remWaitq c) = .ok k ∧
          y = { x with kernel := k })) ∨
    ((x.rings c).curCount ≠ 0 ∧
      ret = some ((((x.rings c).curCount - 1 : Nat) : Int),
        some (bytesAt x.mem (x.rings c).removePtr (x.rings c).eltSize)) ∧
      ∃ k, x.kernel.wakeupQueue cfg p (.insWaitq c) tsc = .ok k ∧
        y = ⟨k, update x.rings c { x.rings c with
          removePtr := if (x.rings c).bufferEnd ≤ (x.rings c).removePtr + (x.rings c).eltSize
            then (x.rings c).buffer else (x.rings c).removePtr + (x.rings c).eltSize
          curCount := (x.rings c).curCount - 1 }, x.mem⟩) :=
  nowait_cases h

end Calls

section Invariant

/-- What was inserted and not removed is in the buffer, in order; tasks wait only while it is full
or empty. -/
structure Fifo (l : Layout) (x : Traffic σ τ ι κ n) (c : κ) : Prop where
  stored : ∃ head contents, Stored l (x.rings c) x.mem head contents ∧
    x.inserted c = x.removed c ++ contents
  full : members x.kernel (.inr (.insWaitq c)) ≠ [] →
    (x.rings c).curCount = (x.rings c).numElts
  empty : members x.kernel (.inr (.remWaitq c)) ≠ [] → (x.rings c).curCount = 0

def Inv (cfg : Config σ τ n) (layout : κ → Layout) (x : Traffic σ τ ι κ n) : Prop :=
  (∃ b w, Orderly cfg x.kernel b w) ∧ ∀ c, Fifo (layout c) x c

variable {cfg : Config σ τ n} {layout : κ → Layout} {x x' : Traffic σ τ ι κ n} {p : Nat} {c c0 : κ}
  {k' : Kernel σ τ ι κ Unit n} {tsc : τ → WakeupTsc}

def Fewer (k k' : Kernel σ τ ι κ Unit n) (q : WaitQueue τ ι κ) : Prop :=
  members k' (.inr q) ≠ [] → members k (.inr q) ≠ []

omit [DecidableEq τ] [DecidableEq ι] [DecidableEq κ] in
theorem Fifo.frame (h : Fifo (layout c) x c) (hring : x'.rings c = x.rings c)
    (hmem : ∀ head contents, Stored (layout c) (x.rings c) x.mem head contents →
      Stored (layout c) (x.rings c) x'.mem head contents)
    (hinserted : x'.inserted c = x.inserted c) (hremoved : x'.removed c = x.removed c)
    (hins : Fewer x.kernel x'.kernel (.insWaitq c))
    (hrem : Fewer x.kernel x'.kernel (.remWaitq c)) : Fifo (layout c) x' c := by
  obtain ⟨head, contents, hstored, hhist⟩ := h.stored
  refine ⟨⟨head, contents, ?_, ?_⟩, ?_, ?_⟩
  · rw [hring]
    exact hmem head contents hstored
  · rw [hinserted, hremoved, hhist]
  · rw [hring]
    exact fun hne => h.full (hins hne)
  · rw [hring]
    exact fun hne => h.empty (hrem hne)

theorem wait_fewer {q : WaitQueue τ ι κ} (q' : WaitQueue τ ι κ)
    (h : ∃ b w, Orderly cfg x.kernel b w)
    (hcalls : Calls cfg x.kernel p) (hstep : x.kernel.wait p q = .ok k') :
    (∃ b w, Orderly cfg k' b w) ∧ (q' ≠ q → Fewer x.kernel k' q') := by
  obtain ⟨b, w, h⟩ := h
  obtain ⟨t, -, h'⟩ := wait_orderly h hcalls hstep
  refine ⟨⟨_, _, h'⟩, ?_⟩
  intro hq hne
  rw [h'.members_eq, Sum.elim_inr, update_of_ne hq] at hne
  rwa [h.members_eq]

theorem wakeupQueue_fewer {q : WaitQueue τ ι κ} (h : ∃ b w, Orderly cfg x.kernel b w)
    (hstep : x.kernel.wakeupQueue cfg p q tsc = .ok k') :
    (∃ b w, Orderly cfg k' b w) ∧ (∀ q', Fewer x.kernel k' q') ∧ members k' (.inr q) = [] := by
  obtain ⟨b, w, h⟩ := h
  obtain ⟨b', w', h', hsub⟩ := wakeupQueue_orderly h hstep
  refine ⟨⟨b', w', h'⟩, ?_, members_empty (wakeupLoop_frame hstep).2.2⟩
  intro q' hne
  rw [h'.members_eq] at hne
  rw [h.members_eq]
  obtain ⟨t, ht⟩ := exists_mem_of_ne_nil _ hne
  exact ne_nil_of_mem (hsub q' t ht)

omit [DecidableEq τ] [DecidableEq ι] [DecidableEq κ] [Fintype τ] in
theorem blocks_onBuffer {k : Kernel σ τ ι κ Unit n} {event : Event τ ι κ Unit n}
    (h : onBuffer event = false) :
    blocks k event ≠ some (p, .insWaitq c) ∧ blocks k event ≠ some (p, .remWaitq c) := by
  cases event with
  | circularInsert => cases h
  | circularRemove => cases h
  | _ => simp [blocks]

theorem inv_other {event : Event τ ι κ Unit n} (h : Inv cfg layout x)
    (hkept : Kept cfg x.kernel event) (hevent : onBuffer event = false)
    (hstep : traffic cfg x (.other event) = .ok x') : Inv cfg layout x' := by
  obtain ⟨⟨b, w, hord⟩, hfifo⟩ := h
  obtain ⟨k, hkern, heq⟩ := bind_eq_ok.mp hstep
  cases heq
  have hfewer : ∀ q, (∀ p, blocks x.kernel event ≠ some (p, q)) → Fewer x.kernel k q := by
    intro q hblocks hne
    obtain ⟨t, ht⟩ := exists_mem_of_ne_nil _ hne
    rcases step_waiting hord hkept.1 hkept.2 hkern ht with hold | ⟨p, hp, -⟩
    · exact ne_nil_of_mem hold
    · exact absurd hp (hblocks p)
  refine ⟨step_orderly hord hkept.1 hkept.2 hkern, fun c => ?_⟩
  exact (hfifo c).frame rfl (fun _ _ => id) rfl rfl
    (hfewer _ fun p => (blocks_onBuffer hevent).1) (hfewer _ fun p => (blocks_onBuffer hevent).2)

theorem inv_insert {elt : Nat → UInt8} {nowait : Bool} (h : Inv cfg layout x)
    (hapart : ∀ c c', c ≠ c' → (layout c).Apart (layout c')) (hcalls : Calls cfg x.kernel p)
    (hstep : traffic cfg x (.insert p c0 elt nowait tsc) = .ok x') : Inv cfg layout x' := by
  obtain ⟨hord, hfifo⟩ := h
  obtain ⟨⟨ret, y⟩, hins, heq⟩ := bind_eq_ok.mp hstep
  cases heq
  rcases insert_cases hins with
    ⟨hfull, ⟨-, rfl, rfl⟩ | ⟨-, rfl, k, hwait, rfl⟩⟩ | ⟨hroom, rfl, k, hwake, rfl⟩
  · simpa [update_eq_self] using ⟨hord, hfifo⟩
  · have hframe := fun q' => wait_fewer q' hord hcalls hwait
    refine ⟨(hframe .sleepqueue).1, ?_⟩
    simp only [Option.any_none, Bool.false_eq_true, if_false, append_nil,
      update_eq_self]
    intro c
    refine ⟨(hfifo c).stored, ?_, fun hne => (hfifo c).empty ((hframe _).2 nofun hne)⟩
    intro hne
    by_cases hc : c = c0
    · rw [hc]
      exact hfull
    · exact (hfifo c).full ((hframe _).2 (by simpa using hc) hne)
  · obtain ⟨hord', hfewer, hempty⟩ := wakeupQueue_fewer hord hwake
    have hmoved : (if (some (((x.rings c0).curCount + 1 : Nat) : Int)).any (0 ≤ ·) = true then
        [bytesAt elt 0 (x.rings c0).eltSize] else []) = [bytesAt elt 0 (x.rings c0).eltSize] := by
      apply if_pos
      simp only [Option.any_some, decide_eq_true_eq]
      omega
    refine ⟨hord', fun c => ?_⟩
    rw [hmoved]
    obtain ⟨head, contents, hstored, hhist⟩ := (hfifo c0).stored
    by_cases hc : c = c0
    · subst hc
      refine ⟨⟨head, contents ++ [bytesAt elt 0 (x.rings c).eltSize], ?_, ?_⟩, ?_, ?_⟩
      · simp only [update_self]
        exact hstored.insert hroom
      · simp only [update_self]
        rw [hhist, append_assoc]
      · exact fun hne => absurd ((hfifo c).full (hfewer _ hne)) hroom
      · exact fun hne => absurd hempty hne
    · refine (hfifo c).frame (update_of_ne hc _ _) ?_ (update_of_ne hc _ _) rfl
        (hfewer _) (hfewer _)
      intro head' contents' hother
      have hfits := hstored.holds.fits
      have hslot := slot_lt hstored.holds.head_lt hfits
      dsimp only
      rw [hstored.insertPtr, hstored.eltSize]
      exact hother.other (hapart c c0 hc) hslot

theorem inv_remove {nowait : Bool} (h : Inv cfg layout x) (hcalls : Calls cfg x.kernel p)
    (hstep : traffic cfg x (.remove p c0 nowait tsc) = .ok x') : Inv cfg layout x' := by
  obtain ⟨hord, hfifo⟩ := h
  obtain ⟨⟨ret, y⟩, hrem, heq⟩ := bind_eq_ok.mp hstep
  cases heq
  rcases remove_cases hrem with
    ⟨hnone, ⟨-, rfl, rfl⟩ | ⟨-, rfl, k, hwait, rfl⟩⟩ | ⟨hsome, rfl, k, hwake, rfl⟩
  · simpa [update_eq_self] using ⟨hord, hfifo⟩
  · have hframe := fun q' => wait_fewer q' hord hcalls hwait
    refine ⟨(hframe .sleepqueue).1, ?_⟩
    simp only [Option.bind_none, Option.toList_none, append_nil, update_eq_self]
    intro c
    refine ⟨(hfifo c).stored, fun hne => (hfifo c).full ((hframe _).2 nofun hne), ?_⟩
    intro hne
    by_cases hc : c = c0
    · rw [hc]
      exact hnone
    · exact (hfifo c).empty ((hframe _).2 (by simpa using hc) hne)
  · obtain ⟨hord', hfewer, hempty⟩ := wakeupQueue_fewer hord hwake
    refine ⟨hord', fun c => ?_⟩
    simp only [Option.bind_some, Option.toList_some]
    by_cases hc : c = c0
    · subst hc
      obtain ⟨head, contents, hstored, hhist⟩ := (hfifo c).stored
      cases contents with
      | nil => exact absurd hstored.curCount hsome
      | cons first contents =>
        obtain ⟨hfirst, hrest⟩ := hstored.remove
        refine ⟨⟨advance (layout c).numElts head, contents, ?_, ?_⟩, ?_, ?_⟩
        · simp only [update_self]
          exact hrest
        · simp only [update_self]
          rw [hhist, hfirst, append_assoc, singleton_append]
        · exact fun hne => absurd hempty hne
        · exact fun hne => absurd ((hfifo c).empty (hfewer _ hne)) hsome
    · exact (hfifo c).frame (update_of_ne hc _ _) (fun _ _ => id) rfl
        (update_of_ne hc _ _) (hfewer _) (hfewer _)

end Invariant

/-- A buffer hands out what it was given, in order, refuses a call only when it is full or empty,
and keeps no task waiting longer than that. -/
theorem circular_fifo {cfg : Config σ τ n} {start x : Traffic σ τ ι κ n}
    (hboot : Boot cfg start.kernel) (layout : κ → Layout)
    (hapart : ∀ c c', c ≠ c' → (layout c).Apart (layout c'))
    (hrings : ∀ c, start.rings c =
      circularInit (layout c).buffer (layout c).numElts (layout c).eltSize)
    (hnew : ∀ c, start.inserted c = [] ∧ start.removed c = [])
    (hreach : Reaches (traffic cfg) (Permits cfg) start x) (c : κ) :
    x.removed c <+: x.inserted c ∧
    (x.rings c).curCount ≤ (layout c).numElts ∧
    (x.removed c).length + (x.rings c).curCount = (x.inserted c).length ∧
    (∀ p elt tsc ret y, x.genericCircularInsert cfg p c elt true tsc = .ok (ret, y) →
      (ret = some (-1) ↔ (x.rings c).curCount = (layout c).numElts)) ∧
    (∀ p tsc ret y, x.genericCircularRemove cfg p c true tsc = .ok (ret, y) →
      (ret.map Prod.fst = some (-1) ↔ (x.rings c).curCount = 0)) ∧
    (members x.kernel (.inr (.remWaitq c)) ≠ [] → (x.rings c).curCount = 0) ∧
    (members x.kernel (.inr (.insWaitq c)) ≠ [] →
      (x.rings c).curCount = (layout c).numElts) := by
  have hstart : Inv cfg layout start := by
    refine ⟨⟨_, _, orderly_boot hboot⟩, fun c => ⟨⟨0, [], ?_, ?_⟩, ?_, ?_⟩⟩
    · rw [hrings]
      exact stored_init (layout c) start.mem
    · rw [(hnew c).1, (hnew c).2, List.append_nil]
    · exact fun hne => absurd (members_empty (hboot.waitq _)) hne
    · exact fun hne => absurd (members_empty (hboot.waitq _)) hne
  have hinv : Inv cfg layout x := by
    apply hreach.invariant (Inv cfg layout) hstart
    intro x x' event hinv hpermits hstep
    cases event with
    | insert p c elt nowait tsc => exact inv_insert hinv hapart hpermits hstep
    | remove p c nowait tsc => exact inv_remove hinv hpermits hstep
    | other event => exact inv_other hinv hpermits.1 hpermits.2 hstep
  obtain ⟨⟨head, contents, hstored, hhistory⟩, hfull, hempty⟩ := hinv.2 c
  rw [← hstored.numElts]
  refine ⟨⟨contents, hhistory.symm⟩, ?_, ?_, ?_, ?_, hempty, hfull⟩
  · rw [hstored.curCount, hstored.numElts]
    exact hstored.holds.fits
  · rw [hstored.curCount, hhistory, List.length_append]
  · intro p elt tsc ret y hinsert
    rcases insert_cases hinsert with ⟨hcount, ⟨-, rfl, -⟩ | ⟨hwait, -⟩⟩ | ⟨hcount, rfl, -⟩
    · exact iff_of_true rfl hcount
    · cases hwait
    · rw [Option.some.injEq]
      omega
  · intro p tsc ret y hremove
    rcases remove_cases hremove with ⟨hcount, ⟨-, rfl, -⟩ | ⟨hwait, -⟩⟩ | ⟨hcount, rfl, -⟩
    · exact iff_of_true rfl hcount
    · cases hwait
    · rw [Option.map_some, Option.some.injEq]
      omega

/-! A buffer of two elements of three bytes, three inserts and a remove. -/

section TwoElements

local instance neZeroThree : NeZero 3 := ⟨by decide⟩

def twoElements : Layout := ⟨100, 2, 3, by decide, by decide⟩

def emptyBuffers : Traffic IoVcpu (Fin 3) Unit Unit 1 where
  kernel := oneIoBoot
  rings _ := circularInit 100 2 3
  mem _ := 0
  inserted _ := []
  removed _ := []

def insertFrom (first : UInt8) (now : Nat) : BufferEvent (Fin 3) Unit Unit 1 :=
  .insert 0 () (fun j => first + j.toUInt8) false fun _ => ⟨.at now, now, .at now⟩

def wrapAround : List (BufferEvent (Fin 3) Unit Unit 1) :=
  [.other (wakeupAt 0 1), .other (scheduleAt 1), insertFrom 1 2, insertFrom 11 3,
    .remove 0 () false fun _ => ⟨.at 4, 4, .at 4⟩, insertFrom 21 5,
    .remove 0 () true fun _ => ⟨.at 6, 6, .at 6⟩]

theorem circular_fifo_wrap_around :
    ∃ start x : Traffic IoVcpu (Fin 3) Unit Unit 1, Boot oneIo start.kernel ∧
      start.rings () = circularInit 100 2 3 ∧ start.inserted () = [] ∧ start.removed () = [] ∧
      Reaches (traffic oneIo) (Permits oneIo) start x ∧
      x.inserted () = [[1, 2, 3], [11, 12, 13], [21, 22, 23]] ∧
      x.removed () = [[1, 2, 3], [11, 12, 13]] ∧ x.removed () <+: x.inserted () ∧
      (x.rings ()).curCount = 1 := by
  have hrun : (replay (traffic oneIo) (Permits oneIo) emptyBuffers wrapAround).map
      (fun x => (x.inserted (), x.removed ())) =
      some ([[1, 2, 3], [11, 12, 13], [21, 22, 23]], [[1, 2, 3], [11, 12, 13]]) := by decide
  obtain ⟨x, hx, hview⟩ := Option.map_eq_some_iff.mp hrun
  rw [Prod.mk.injEq] at hview
  have hreach := Reaches.refl.replay hx
  have hfifo := circular_fifo oneIoBoot_boot (fun _ => twoElements)
    (fun c c' hne => absurd rfl hne) (fun _ => rfl) (fun _ => ⟨rfl, rfl⟩) hreach ()
  have hcount := hfifo.2.2.1
  rw [hview.1, hview.2] at hcount
  refine ⟨emptyBuffers, x, oneIoBoot_boot, rfl, rfl, rfl, hreach, hview.1, hview.2,
    hfifo.1, ?_⟩
  exact Nat.add_left_cancel hcount

end TwoElements

end Quest.Blocking.Buffers
