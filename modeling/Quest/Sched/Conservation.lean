import Quest.Sched.Sporadic

/-! The hooks of a Main VCPU, called in any order, neither lose nor create budget. -/
namespace Quest.Sched.Conservation

open Quest.Lib.LinkedList
open Quest.Sched.ReplPool
open Quest.Sched.Sporadic
open Quest.Sched.Ledger (Entry)

variable {v : MainVcpu} {es : List Entry} {C : Nat}

inductive MainCall where
  | updateReplenishments (tcur now : Nat)
  | endTimeslice (runnable : Bool) (tdelta now₁ now₂ now₃ : Nat)
  | unblock (now₁ now₂ : Nat)

/-- The `RDTSC` readings of a call, in the order in which they are made. -/
def MainCall.readings : MainCall → List Nat
  | updateReplenishments _ now => [now]
  | endTimeslice _ _ now₁ now₂ now₃ => [now₁, now₂, now₃]
  | unblock now₁ now₂ => [now₁, now₂]

def MainCall.run (v : MainVcpu) : MainCall → Except Fault MainVcpu
  | updateReplenishments tcur now => .ok (mainVcpuUpdateReplenishments v tcur now)
  | endTimeslice runnable tdelta now₁ now₂ now₃ =>
      mainVcpuEndTimeslice v runnable tdelta now₁ now₂ now₃
  | unblock now₁ now₂ => mainVcpuUnblock v now₁ now₂

def callStep (s : MainVcpu × Nat) (call : MainCall) : Except Fault (MainVcpu × Nat) := do
  let v ← call.run s.1
  .ok (v, call.readings.getLastD s.2)

def ClockForward (s : MainVcpu × Nat) (call : MainCall) : Prop :=
  (s.2 :: call.readings).Pairwise (· ≤ ·)

instance (s : MainVcpu × Nat) (call : MainCall) : Decidable (ClockForward s call) :=
  inferInstanceAs (Decidable (List.Pairwise _ _))

/-- The list from `head` holds the whole budget in positive amounts, fits the pool, and consists
of the entries in use; and nothing was dropped. -/
def Conserved (C : Nat) (Q : ReplQueue) : Prop :=
  ∃ slots : List Slot, Chain Q.next Q.head slots ∧
    (slots.map fun i => (Q.array i).b).sum = C ∧ (∀ i ∈ slots, 0 < (Q.array i).b) ∧
    Q.size = slots.length ∧ 1 ≤ Q.size ∧ Q.size ≤ maxRepl ∧
    slots.Nodup ∧ (∀ i, (Q.array i).t ≠ 0 ↔ i ∈ slots) ∧ Q.dropped = 0

theorem conserved_of_sound (h : Sound v C es) (hdrop : v.Q.dropped = 0) : Conserved C v.Q := by
  have hsize := h.represents.size_eq
  have hbal := h.balanced
  obtain ⟨slots, hlists, rfl⟩ := h.represents
  refine ⟨slots, hlists.chain, ?_, ?_, hlists.size, ?_, ?_, hlists.chain.nodup, hlists.live,
    hdrop⟩
  · rw [← hbal.amount_eq, Ledger.amount, List.map_map]
    rfl
  · intro i hi
    exact (hbal.positive _ (List.mem_map_of_mem hi)).1
  · rw [hsize]
    exact List.length_pos_iff.mpr hbal.nonempty
  · rw [hsize]
    exact hbal.fits

theorem callStep_sound {clock : Nat} (h : Sound v C es) (call : MainCall)
    (hclock : ClockForward (v, clock) call) :
    ∃ v' es', callStep (v, clock) call = .ok (v', call.readings.getLastD clock) ∧
      Sound v' C es' ∧ v'.Q.dropped = v.Q.dropped := by
  cases call with
  | updateReplenishments tcur now =>
    exact ⟨_, es, rfl, (mainVcpuUpdateReplenishments_sound tcur now h).2, rfl⟩
  | endTimeslice runnable tdelta now1 now2 now3 =>
    obtain ⟨Q, hcall, hsound, hdrop⟩ :=
      mainVcpuEndTimeslice_sound runnable tdelta now1 now2 now3 h
    refine ⟨_, _, ?_, hsound, hdrop⟩
    rw [callStep, MainCall.run, hcall, ok_bind]
  | unblock now1 now2 =>
    have hle : now1 ≤ now2 := by
      simp only [ClockForward, MainCall.readings, List.pairwise_cons] at hclock
      exact hclock.2.1 now2 (by simp)
    obtain ⟨Q, hcall, hsound, hdrop⟩ := mainVcpuUnblock_sound now1 now2 hle h
    refine ⟨_, _, ?_, hsound, hdrop⟩
    rw [callStep, MainCall.run, hcall, ok_bind]

/-- The replenishments always add up to `C` and every call returns: none is dropped,
`repl_queue_add` finds a free entry, and no NULL pointer is followed. -/
theorem budget_conserved (C T vcpuInitTime : Nat) (hC : 0 < C) (htime : 0 < vcpuInitTime) :
    ∃ v0, mainVcpuInit C T vcpuInitTime = .ok v0 ∧
      ∀ s, Lib.Reach.Reaches callStep ClockForward (v0, vcpuInitTime) s →
        Conserved C s.1.Q ∧ ∀ call, ClockForward s call → ∃ s', callStep s call = .ok s' := by
  obtain ⟨Q, hinit, hsound, hdropped⟩ := mainVcpuInit_sound C T vcpuInitTime hC htime
  refine ⟨_, hinit, fun s hreach => ?_⟩
  have hinv : (∃ es, Sound s.1 C es) ∧ s.1.Q.dropped = 0 := by
    refine hreach.invariant (fun s => (∃ es, Sound s.1 C es) ∧ s.1.Q.dropped = 0)
      ⟨⟨_, hsound⟩, hdropped⟩ ?_
    rintro ⟨v, clock⟩ s' call ⟨⟨es, hes⟩, hzero⟩ hclock hstep
    obtain ⟨v', es', hcall, hsound', hdropped'⟩ := callStep_sound hes call hclock
    rw [hcall] at hstep
    cases hstep
    exact ⟨⟨es', hsound'⟩, hdropped'.trans hzero⟩
  obtain ⟨⟨es, hes⟩, hzero⟩ := hinv
  refine ⟨conserved_of_sound hes hzero, fun call hclock => ?_⟩
  obtain ⟨v', es', hcall, -⟩ := callStep_sound hes call hclock
  exact ⟨_, hcall⟩

theorem budget_conserved_at_boot :
    ∃ v0, mainVcpuInit 20 100 7 = .ok v0 ∧ Conserved 20 v0.Q ∧
      ∃ s, callStep (v0, 7) (.endTimeslice false 25 30 30 31) = .ok s ∧ Conserved 20 s.1.Q := by
  obtain ⟨v0, hinit, hall⟩ := budget_conserved 20 100 7 (by decide) (by decide)
  obtain ⟨hconserved, hreturns⟩ := hall _ .refl
  have hclock : ClockForward (v0, 7) (.endTimeslice false 25 30 30 31) := by
    simp [ClockForward, MainCall.readings]
  obtain ⟨s, hs⟩ := hreturns _ hclock
  exact ⟨v0, hinit, hconserved, s, hs, (hall s (.tail .refl hclock hs)).1⟩

end Quest.Sched.Conservation
