import Quest.Blocking.Discipline

/-! The semaphores of `smp/semaphore.c` in every run, with a record of what the calls returned and
what the waiters asked for. -/
namespace Quest.Blocking.Semaphores

open Lib.Reach Sched.Hooks Sched.Core Sched.Pibs Model Apart OneQueue Discipline Function

variable {σ τ ι κ α : Type} {n : Nat}

def semaphoreInit (max init : Int) : Semaphore := ⟨init, max⟩

/-- The units granted and signalled, whether a signal went over the maximum, and what each task
asked for when it last blocked. -/
structure Record (τ : Type) where
  granted : Int
  signalled : Int
  saturated : Bool
  demand : τ → Int

def Record.empty (τ : Type) : Record τ := ⟨0, 0, false, fun _ => 0⟩

def Record.wait [DecidableEq τ] (r : Record τ) (task : Option τ) (s : Int) :
    Option Int → Record τ
  | some _ => { r with granted := r.granted + s }
  | none => { r with demand := fun t => if task = some t then s else r.demand t }

def Record.signal (r : Record τ) (s status : Int) : Record τ :=
  { r with signalled := r.signalled + s, saturated := r.saturated || status = -1 }

structure Audit (σ τ ι κ α : Type) (n : Nat) where
  kernel : Kernel σ τ ι κ α n
  records : ι → Record τ

variable [DecidableEq τ] [DecidableEq ι] [DecidableEq κ] [Fintype τ]

def audit (cfg : Config σ τ n) (x : Audit σ τ ι κ α n) :
    Event τ ι κ α n → Except Fault (Audit σ τ ι κ α n)
  | .semaphoreWait p i s => do
      let (ret, k) ← x.kernel.semaphoreWait p i s
      let record := (x.records i).wait (x.kernel.sched.str p) s ret
      .ok ⟨k, update x.records i record⟩
  | .semaphoreSignal p i s tsc => do
      let (status, k) ← x.kernel.semaphoreSignal cfg p i s tsc
      .ok ⟨k, update x.records i ((x.records i).signal s status)⟩
  | event => do
      let k ← step cfg x.kernel event
      .ok ⟨k, x.records⟩

def Positive : Event τ ι κ α n → Prop
  | .semaphoreWait _ _ s => 0 < s
  | .semaphoreSignal _ _ s _ => 0 < s
  | _ => True

instance (event : Event τ ι κ α n) : Decidable (Positive event) := by
  refine event.casesOn ?_ ?_ ?_ ?_ ?_ ?_ ?_ ?_ ?_ ?_ ?_ ?_ <;> intros
  all_goals first | exact isTrue trivial | exact Int.decLt _ _

variable {cfg : Config σ τ n} {x x' : Audit σ τ ι κ α n} {event : Event τ ι κ α n} {i : ι}
  {max init : Int}

theorem audit_step (h : audit cfg x event = .ok x') : step cfg x.kernel event = .ok x'.kernel := by
  cases event with
  | semaphoreWait p i s =>
    obtain ⟨⟨ret, k⟩, hwait, heq⟩ := bind_eq_ok.mp h
    cases heq
    exact map_eq_ok.mpr ⟨_, hwait, rfl⟩
  | semaphoreSignal p i s tsc =>
    obtain ⟨⟨status, k⟩, hsignal, heq⟩ := bind_eq_ok.mp h
    cases heq
    exact map_eq_ok.mpr ⟨_, hsignal, rfl⟩
  | _ =>
    obtain ⟨k, hstep, heq⟩ := bind_eq_ok.mp h
    cases heq
    exact hstep

structure Counts (max init : Int) (x : Audit σ τ ι κ α n) (i : ι) : Prop where
  max_eq : (x.kernel.semaphores i).max = max
  nonneg : 0 ≤ (x.kernel.semaphores i).s
  le_max : (x.kernel.semaphores i).s ≤ max
  bound : (x.kernel.semaphores i).s + (x.records i).granted ≤ init + (x.records i).signalled
  exact : (x.records i).saturated = false →
    (x.kernel.semaphores i).s + (x.records i).granted = init + (x.records i).signalled
  asking : ∀ t ∈ members x.kernel (.inr (.semaphore i)),
    (x.kernel.semaphores i).s < (x.records i).demand t

omit [DecidableEq τ] [DecidableEq ι] [DecidableEq κ] in
theorem Counts.other (h : Counts max init x i)
    (hsem : x'.kernel.semaphores i = x.kernel.semaphores i) (hrec : x'.records i = x.records i)
    (hwaiting : ∀ t ∈ members x'.kernel (.inr (.semaphore i)),
      t ∈ members x.kernel (.inr (.semaphore i))) : Counts max init x' i := by
  constructor
  · rw [hsem, h.max_eq]
  · rw [hsem]
    exact h.nonneg
  · rw [hsem]
    exact h.le_max
  · rw [hsem, hrec]
    exact h.bound
  · rw [hsem, hrec]
    exact h.exact
  · rw [hsem, hrec]
    exact fun t ht => h.asking t (hwaiting t ht)

section Step

variable {b : Sched.Rules.Board τ (Fin n) Nat} {w : WaitQueue τ ι κ → List τ} {p : Nat} {s : Int}

theorem counts_wait (h : Counts max init x i) (hord : Orderly cfg x.kernel b w) {j : ι}
    (hkept : Kept cfg x.kernel (.semaphoreWait p j s)) (hs : 0 < s)
    (hstep : audit cfg x (.semaphoreWait p j s) = .ok x') : Counts max init x' i := by
  have hwaiting := fun t (ht : t ∈ members x'.kernel (.inr (.semaphore i))) =>
    step_waiting hord hkept.1 hkept.2 (audit_step hstep) ht
  obtain ⟨⟨ret, k⟩, hwait, heq⟩ := bind_eq_ok.mp hstep
  cases heq
  by_cases hj : j = i
  · subst hj
    rcases semaphoreWait_cases hwait with ⟨henough, rfl, rfl⟩ | ⟨hfew, rfl, hblock⟩
    · have hnonneg := h.nonneg
      have hle := h.le_max
      have hbound := h.bound
      have hexact := h.exact
      constructor <;> simp only [update_self, Record.wait]
      · exact h.max_eq
      · omega
      · omega
      · omega
      · intro hsaturated
        have := hexact hsaturated
        omega
      · intro t ht
        have hask := h.asking t ht
        omega
    · have hsame := (wait_frame hblock).2.semaphores
      constructor <;> simp only [update_self, Record.wait, hsame]
      · exact h.max_eq
      · exact h.nonneg
      · exact h.le_max
      · exact h.bound
      · exact h.exact
      · intro t ht
        split
        · exact hfew
        · rename_i hother
          rcases hwaiting t ht with hold | ⟨p', hblocks, hstr⟩
          · exact h.asking t hold
          · simp only [blocks, Option.ite_none_left_eq_some, Option.some.injEq] at hblocks
            cases hblocks.2
            exact absurd hstr hother
  · apply h.other
    · rcases semaphoreWait_cases hwait with ⟨-, -, rfl⟩ | ⟨-, -, hblock⟩
      · exact update_of_ne (Ne.symm hj) _ _
      · exact congrFun (wait_frame hblock).2.semaphores i
    · exact update_of_ne (Ne.symm hj) _ _
    · intro t ht
      rcases hwaiting t ht with hold | ⟨p', hblocks, -⟩
      · exact hold
      · simp only [blocks, Option.ite_none_left_eq_some, Option.some.injEq] at hblocks
        cases hblocks.2
        exact absurd rfl hj

theorem counts_signal {tsc : τ → WakeupTsc} (h : Counts max init x i)
    (hord : Orderly cfg x.kernel b w) {j : ι}
    (hkept : Kept cfg x.kernel (.semaphoreSignal p j s tsc)) (hs : 0 < s)
    (hstep : audit cfg x (.semaphoreSignal p j s tsc) = .ok x') : Counts max init x' i := by
  have hwaiting := fun t (ht : t ∈ members x'.kernel (.inr (.semaphore i))) =>
    step_waiting hord hkept.1 hkept.2 (audit_step hstep) ht
  obtain ⟨⟨status, k⟩, hsignal, heq⟩ := bind_eq_ok.mp hstep
  cases heq
  obtain ⟨-, -, hempty, hsem, hstatus⟩ := semaphoreSignal_cases hsignal
  by_cases hj : j = i
  · subst hj
    have hmax := h.max_eq
    have hnonneg := h.nonneg
    have hle := h.le_max
    have hbound := h.bound
    have hexact := h.exact
    constructor <;> simp only [update_self, Record.signal, hsem, hmax]
    · omega
    · omega
    · omega
    · simp only [Bool.or_eq_false_iff, decide_eq_false_iff_not]
      rintro ⟨hsaturated, hnot⟩
      have hbefore := hexact hsaturated
      have hroom : ¬(x.kernel.semaphores j).max < (x.kernel.semaphores j).s + s := by
        intro hover
        exact hnot (by rw [hstatus, if_pos hover])
      omega
    · rw [members_empty hempty]
      exact fun t ht => absurd ht List.not_mem_nil
  · apply h.other
    · rw [hsem]
      exact update_of_ne (Ne.symm hj) _ _
    · exact update_of_ne (Ne.symm hj) _ _
    · intro t ht
      rcases hwaiting t ht with hold | ⟨p', hblocks, -⟩
      · exact hold
      · cases hblocks

omit [DecidableEq τ] [DecidableEq ι] [DecidableEq κ] [Fintype τ] in
theorem blocks_semaphore {k : Kernel σ τ ι κ α n} (h : blocks k event = some (p, .semaphore i)) :
    ∃ s, event = .semaphoreWait p i s := by
  cases event with
  | semaphoreWait q j s =>
    simp only [blocks, Option.ite_none_left_eq_some, Option.some.injEq, Prod.mk.injEq,
      WaitQueue.semaphore.injEq] at h
    obtain ⟨-, rfl, rfl⟩ := h
    exact ⟨s, rfl⟩
  | _ => simp [blocks] at h

theorem counts_step (h : Counts max init x i) (hord : Orderly cfg x.kernel b w)
    (hkept : Kept cfg x.kernel event) (hpos : Positive event)
    (hstep : audit cfg x event = .ok x') : Counts max init x' i := by
  have hkern := audit_step hstep
  -- An event that is no call on a semaphore keeps the count and the waiters.
  have hother : (∀ p i s, event ≠ .semaphoreWait p i s) →
      x'.kernel.semaphores = x.kernel.semaphores → x'.records = x.records →
      Counts max init x' i := by
    intro hevent hsem hrecords
    apply h.other (congrFun hsem i) (congrFun hrecords i)
    intro t ht
    rcases step_waiting hord hkept.1 hkept.2 hkern ht with hold | ⟨p, hblocks, -⟩
    · exact hold
    · obtain ⟨s, hwait⟩ := blocks_semaphore hblocks
      exact absurd hwait (hevent p i s)
  cases event with
  | semaphoreWait p j s => exact counts_wait h hord hkept hpos hstep
  | semaphoreSignal p j s tsc => exact counts_signal h hord hkept hpos hstep
  | circularInsert p c elt nowait tsc =>
    obtain ⟨k, -, heq⟩ := bind_eq_ok.mp hstep
    obtain ⟨⟨ret, k1⟩, hins, hk1⟩ := map_eq_ok.mp hkern
    cases heq
    cases hk1
    exact hother nofun (circularInsert_semaphores hins) rfl
  | circularRemove p c nowait tsc =>
    obtain ⟨k, -, heq⟩ := bind_eq_ok.mp hstep
    obtain ⟨⟨ret, k1⟩, hrem, hk1⟩ := map_eq_ok.mp hkern
    cases heq
    cases hk1
    exact hother nofun (circularRemove_semaphores hrem) rfl
  | _ =>
    obtain ⟨k, -, heq⟩ := bind_eq_ok.mp hstep
    cases heq
    exact hother nofun (step_sameData rfl hkern).semaphores rfl

end Step

/-- A semaphore keeps its count, grants no more than it was given, and leaves no
task waiting for units that it has. -/
theorem semaphore_correct {start : Audit σ τ ι κ α n} (hboot : Boot cfg start.kernel) (i : ι)
    (hsem : start.kernel.semaphores i = semaphoreInit max init)
    (hrecord : start.records i = .empty τ) (hinit : 0 ≤ init) (hmax : init ≤ max)
    (hreach : Reaches (audit cfg) (fun x event => Kept cfg x.kernel event ∧ Positive event)
      start x) :
    0 ≤ (x.kernel.semaphores i).s ∧ (x.kernel.semaphores i).s ≤ max ∧
    (x.kernel.semaphores i).s + (x.records i).granted ≤ init + (x.records i).signalled ∧
    ((x.records i).saturated = false →
      (x.kernel.semaphores i).s + (x.records i).granted = init + (x.records i).signalled) ∧
    ∀ t ∈ members x.kernel (.inr (.semaphore i)),
      (x.kernel.semaphores i).s < (x.records i).demand t := by
  have hstart : Counts max init start i := by
    constructor
    · rw [hsem]
      rfl
    · rw [hsem]
      exact hinit
    · rw [hsem]
      exact hmax
    · rw [hsem, hrecord]
      exact Int.le_refl _
    · rw [hsem, hrecord]
      exact fun _ => rfl
    · rw [members_empty (hboot.waitq _)]
      exact fun t ht => absurd ht List.not_mem_nil
  have hinv : (∃ b w, Orderly cfg x.kernel b w) ∧ Counts max init x i := by
    apply hreach.invariant (fun x => (∃ b w, Orderly cfg x.kernel b w) ∧ Counts max init x i)
      ⟨⟨_, _, orderly_boot hboot⟩, hstart⟩
    intro x x' event ⟨⟨b, w, horderly⟩, hcounts⟩ ⟨hkept, hpositive⟩ hstep
    exact ⟨step_orderly horderly hkept.1 hkept.2 (audit_step hstep),
      counts_step hcounts horderly hkept hpositive hstep⟩
  exact ⟨hinv.2.nonneg, hinv.2.le_max, hinv.2.bound, hinv.2.exact, hinv.2.asking⟩

/-! The thread 0 waits, is signalled from another PCPU before it calls `schedule`,
takes its unit, and waits for the next one. -/

section LateSignal

local instance neZeroThree : NeZero 3 := ⟨by decide⟩

def lateSignal : List (Event (Fin 3) Unit Unit Unit 1) :=
  [wakeupAt 0 1, scheduleAt 1, .semaphoreWait 0 () 1,
    .semaphoreSignal 1 () 1 fun _ => ⟨.at 2, 2, .at 2⟩, scheduleAt 3, .semaphoreWait 0 () 1,
    .semaphoreWait 0 () 1]

theorem semaphore_correct_late_signal :
    ∃ start x : Audit IoVcpu (Fin 3) Unit Unit Unit 1, Boot oneIo start.kernel ∧
      start.kernel.semaphores () = semaphoreInit 1 0 ∧ start.records () = .empty _ ∧
      Reaches (audit oneIo) (fun x event => Kept oneIo x.kernel event ∧ Positive event) start x ∧
      (x.records ()).granted = 1 ∧ members x.kernel (.inr (.semaphore ())) = [0] ∧
      (x.kernel.semaphores ()).s < (x.records ()).demand 0 := by
  have hrun : (replay (audit oneIo) (fun x event => Kept oneIo x.kernel event ∧ Positive event)
      ⟨oneIoBoot, fun _ => .empty _⟩ lateSignal).map (fun x =>
        ((x.records ()).granted, members x.kernel (.inr (.semaphore ())))) = some (1, [0]) := by
    decide
  obtain ⟨x, hx, hview⟩ := Option.map_eq_some_iff.mp hrun
  rw [Prod.mk.injEq] at hview
  have hreach := Reaches.refl.replay hx
  refine ⟨⟨oneIoBoot, fun _ => .empty _⟩, x, oneIoBoot_boot, rfl, rfl, hreach, hview.1, hview.2, ?_⟩
  have hcorrect := semaphore_correct oneIoBoot_boot () rfl rfl (by decide) (by decide) hreach
  exact hcorrect.2.2.2.2 0 (by simp [hview.2])

end LateSignal

end Quest.Blocking.Semaphores
