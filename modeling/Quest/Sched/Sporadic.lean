import Quest.Sched.Hooks
import Quest.Sched.ReplPool

/-! Main VCPUs: the hooks `main_vcpu_*` of `sched/vcpu.c`.  Each `RDTSC` is an argument.  `u64`
values do not wrap, and the `s64` capacity is an integer. -/
namespace Quest.Sched.Sporadic

open Quest.Sched.Hooks Ledger
open Quest.Sched.ReplPool
open Quest.Sched.Ledger (Entry Balanced Unspent)

structure MainVcpu where
  C : Nat
  T : Nat
  b : Nat
  usage : Nat
  Q : ReplQueue

def capacity (v : MainVcpu) (now : Nat) : Int :=
  match v.Q.head with
  | none => 0
  | some h => if now < (v.Q.array h).t then 0 else ((v.Q.array h).b : Int) - v.usage

def mainVcpuUpdateReplenishments (v : MainVcpu) (_tcur now : Nat) : MainVcpu :=
  let cap := capacity v now
  { v with b := if 0 < cap then cap.toNat else 0 }

def nextEventFrom (Q : ReplQueue) (now : Nat) : Nat → Option Slot → Option Nat
  | 0, _ => none
  | _ + 1, none => some 0
  | fuel + 1, some r =>
      if now < (Q.array r).t then some (Q.array r).t
      else nextEventFrom Q now fuel (Q.array r).next

def mainVcpuNextEvent (v : MainVcpu) (now : Nat) : Except Fault Nat :=
  terminated (nextEventFrom v.Q now (maxRepl + 1) v.Q.head)

/-- `repl_queue_pop (Q); Q->head->b += b; Q->head->t = t` -/
def mergeHead (Q : ReplQueue) (b t : Nat) : Except Fault ReplQueue := do
  let Q := replQueuePop Q
  let h ← deref Q.head
  .ok (Q.setEntry h t ((Q.array h).b + b))

/-- The loop of `budget_check`.  A replenishment of a positive amount lowers `usage`. -/
def exhaustLoop : Nat → MainVcpu → Except Fault MainVcpu
  | 0, _ => .error .diverges
  | fuel + 1, v => do
      let h ← deref v.Q.head
      let b := (v.Q.array h).b
      let t := (v.Q.array h).t
      if b ≤ v.usage then
        -- exhaust and reschedule the replenishment
        let Q ← replQueueAdd (replQueuePop v.Q) b (t + v.T)
        exhaustLoop fuel { v with usage := v.usage - b, Q := Q }
      else .ok v

def budgetCheck (v : MainVcpu) (now : Nat) : Except Fault MainVcpu :=
  if capacity v now ≤ 0 then do
    let v ← exhaustLoop (v.usage + 1) v
    if 0 < v.usage then
      -- v->usage is the overrun amount
      let h ← deref v.Q.head
      let Q := v.Q.setEntry h ((v.Q.array h).t + v.usage) (v.Q.array h).b
      -- possibly merge
      if 1 < Q.size then
        let t := (Q.array h).t
        let b := (Q.array h).b
        let s ← deref (Q.array h).next
        if (Q.array s).t ≤ t + b then
          let Q ← mergeHead Q b t
          .ok { v with Q := Q }
        else .ok { v with Q := Q }
      else .ok { v with Q := Q }
    else .ok v
  else .ok v

def splitCheck (v : MainVcpu) (now : Nat) : Except Fault MainVcpu :=
  if 0 < v.usage then do
    let h ← deref v.Q.head
    if (v.Q.array h).t ≤ now then
      let remnant := (v.Q.array h).b - v.usage
      let Q ←
        if v.Q.size = maxRepl then do
          -- merge with next replenishment
          let Q := replQueuePop v.Q
          let h ← deref Q.head
          .ok (Q.setEntry h (Q.array h).t ((Q.array h).b + remnant))
        else
          -- leave remnant as reduced replenishment
          .ok (v.Q.setEntry h (v.Q.array h).t remnant)
      let h ← deref Q.head
      let Q ← replQueueAdd Q v.usage ((Q.array h).t + v.T)
      .ok { v with usage := 0, Q := Q }
    else .ok v
  else .ok v

/-- `now1`, `now2` and `now3` are the readings of `budget_check`, of
`split_check` and of the last `capacity`. -/
def mainVcpuEndTimeslice (v : MainVcpu) (runnable : Bool) (tdelta now1 now2 now3 : Nat) :
    Except Fault MainVcpu := do
  let v ← budgetCheck { v with usage := v.usage + tdelta } now1
  let v ← (if runnable then .ok v else splitCheck v now2)
  let cap := capacity v now3
  .ok { v with b := if 0 < cap then cap.toNat else 0 }

def mergeLoop (now usage : Nat) : Nat → ReplQueue → Except Fault ReplQueue
  | 0, _ => .error .diverges
  | fuel + 1, Q =>
      if 1 < Q.size then do
        let h ← deref Q.head
        let b := (Q.array h).b
        let s ← deref (Q.array h).next
        if (Q.array s).t ≤ now + b - usage then
          let Q ← mergeHead Q b now
          mergeLoop now usage fuel Q
        else .ok Q
      else .ok Q

def unblockCheck (v : MainVcpu) (now1 now2 : Nat) : Except Fault MainVcpu :=
  if 0 < capacity v now1 then do
    let h ← deref v.Q.head
    let Q := v.Q.setEntry h now2 (v.Q.array h).b
    -- merge replenishments using observation 3
    let Q ← mergeLoop now2 v.usage Q.size Q
    .ok { v with Q := Q }
  else .ok v

def mainVcpuUnblock (v : MainVcpu) (now1 now2 : Nat) : Except Fault MainVcpu :=
  unblockCheck v now1 now2

def mainVcpuHooks : VcpuHooks MainVcpu where
  updateReplenishments v tcur tsc := .ok (mainVcpuUpdateReplenishments v tcur tsc.first)
  nextEvent v tsc := mainVcpuNextEvent v tsc.first
  endTimeslice v runnable tdelta tsc :=
    mainVcpuEndTimeslice v runnable tdelta tsc.first tsc.second tsc.third
  unblock v tsc := mainVcpuUnblock v tsc.first tsc.second
  budget := MainVcpu.b

def mainVcpuInit (C T vcpuInitTime : Nat) : Except Fault MainVcpu := do
  let Q ← replQueueAdd .zeroed C vcpuInitTime
  .ok ⟨C, T, 0, 0, Q⟩

/-! Every hook does to the queue what its counterpart does to the list. -/

def Refines (call : Except Fault MainVcpu) (v : MainVcpu) (result : Nat × List Entry) : Prop :=
  ∃ Q, call = .ok { v with usage := result.1, Q := Q } ∧ Q.Represents result.2 ∧
    Q.dropped = v.Q.dropped

variable {v : MainVcpu} {es : List Entry} {C : Nat}

theorem capacity_eq (h : v.Q.Represents es) (now : Nat) :
    capacity v now = Ledger.capacity v.usage now es := by
  cases es with
  | nil => rw [capacity, h.head_nil, Ledger.capacity]
  | cons r rest =>
    obtain ⟨i, hhead, ht, hb, -⟩ := h.head
    rw [capacity, hhead, Ledger.capacity]
    simp only [ht, hb]

theorem exhaustLoop_refines (fuel : Nat) (h : v.Q.Represents es) (hes : Balanced maxRepl C es)
    (hfuel : v.usage < fuel) :
    Refines (exhaustLoop fuel v) v (exhaust v.T fuel v.usage es) := by
  induction fuel generalizing v es with
  | zero => omega
  | succ fuel ih =>
    cases es with
    | nil => exact absurd rfl hes.nonempty
    | cons r rest =>
      obtain ⟨i, hhead, ht, hb, -⟩ := h.head
      obtain ⟨⟨hbpos, htpos⟩, hrest, hamount, hfits⟩ := Ledger.balanced_cons.mp hes
      rw [exhaustLoop, exhaust, hhead, deref_some, ok_bind]
      dsimp only
      rw [ht, hb]
      split
      · obtain ⟨hpop, hdrop⟩ := replQueuePop_represents h
        obtain ⟨Q, hadd, hQ, hdrop'⟩ := replQueueAdd_represents r.b (r.t + v.T) hpop
          (by omega) (by omega)
        have hbal : Balanced maxRepl C (Ledger.insert ⟨r.t + v.T, r.b⟩ rest) :=
          Ledger.balanced_insert.mpr
            (Ledger.balanced_cons.mpr ⟨⟨hbpos, by dsimp only; omega⟩, hrest, hamount, hfits⟩)
        rw [hadd, ok_bind]
        obtain ⟨Q', hcall, hQ', hdrop''⟩ :=
          ih (v := { v with usage := v.usage - r.b, Q := Q }) hQ hbal (by dsimp only; omega)
        exact ⟨Q', hcall, hQ', by rw [hdrop'', hdrop', hdrop]⟩
      · exact ⟨v.Q, rfl, h, rfl⟩

theorem mergeHead_represents {Q : ReplQueue} {r s : Entry} {rest : List Entry} {t : Nat} (b : Nat)
    (h : Q.Represents (r :: s :: rest)) (ht : 0 < t) :
    ∃ Q', mergeHead Q b t = .ok Q' ∧ Q'.Represents (⟨t, s.b + b⟩ :: rest) ∧
      Q'.dropped = Q.dropped := by
  obtain ⟨hpop, hdrop⟩ := replQueuePop_represents h
  obtain ⟨i, hhead, -, hb, -⟩ := hpop.head
  refine ⟨_, ?_, setEntry_represents (s.b + b) hpop hhead ht, hdrop⟩
  rw [mergeHead, hhead, deref_some, ok_bind, hb]

theorem budgetCheck_refines (now : Nat) (h : v.Q.Represents es) (hes : Balanced maxRepl C es) :
    Refines (budgetCheck v now) v (Ledger.budgetCheck v.T now v.usage es) := by
  unfold budgetCheck Ledger.budgetCheck
  rw [capacity_eq h]
  split
  · obtain ⟨Q, hcall, hQ, hdrop⟩ := exhaustLoop_refines (v.usage + 1) h hes
      (Nat.lt_succ_self v.usage)
    obtain ⟨hbal, hleft⟩ :=
      exhaust_spec (T := v.T) (v.usage + 1) v.usage es hes (Nat.lt_succ_self v.usage)
    rw [hcall, ok_bind]
    generalize exhaust v.T (v.usage + 1) v.usage es = result at hQ hbal hleft
    obtain ⟨usage, fs⟩ := result
    dsimp only at hQ hbal hleft ⊢
    split
    · match fs with
      | [] => exact absurd rfl hbal.nonempty
      | [r] =>
        obtain ⟨i, hhead, ht, hb, -⟩ := hQ.head
        have hpost := setEntry_represents r.b hQ hhead (t := r.t + usage)
          (by have := (Ledger.balanced_cons.mp hbal).1.2; omega)
        rw [hhead, deref_some, ok_bind, ht, hb, if_neg (by rw [hpost.size_eq]; simp)]
        exact ⟨_, rfl, hpost, hdrop⟩
      | r :: s :: rest =>
        obtain ⟨i, hhead, ht, hb, -⟩ := hQ.head
        have hpos : 0 < r.t + usage := by
          omega
        have hpost := setEntry_represents r.b hQ hhead hpos
        obtain ⟨i', hhead', ht', hb', hnext⟩ := hpost.head
        obtain rfl : i = i' := Option.some.inj (hhead.symm.trans hhead')
        obtain ⟨j, hj, hjt, -⟩ := hnext s rest rfl
        rw [hhead, deref_some, ok_bind, ht, hb, if_pos (by rw [hpost.size_eq]; simp), hj,
          deref_some, ok_bind, ht', hb', hjt, postpone]
        split
        · obtain ⟨Q', hmerge, hQ', hdrop'⟩ := mergeHead_represents r.b hpost hpos
          rw [hmerge, ok_bind]
          exact ⟨Q', rfl, hQ', hdrop'.trans hdrop⟩
        · exact ⟨_, rfl, hpost, hdrop⟩
    · exact ⟨Q, rfl, hQ, hdrop⟩
  · exact ⟨v.Q, rfl, h, rfl⟩

theorem splitCheck_refines (now : Nat) (h : v.Q.Represents es) (hes : Balanced maxRepl C es) :
    Refines (splitCheck v now) v (Ledger.splitCheck maxRepl v.T now v.usage es) := by
  unfold splitCheck
  cases es with
  | nil => exact absurd rfl hes.nonempty
  | cons r rest =>
    obtain ⟨⟨hbpos, htpos⟩, hrest, hamount, hfits⟩ := Ledger.balanced_cons.mp hes
    obtain ⟨i, hhead, ht, hb, -⟩ := h.head
    simp only [Ledger.splitCheck, hhead, deref_some, ok_bind, ht, hb, h.size_eq]
    by_cases husage : 0 < v.usage
    · by_cases hdue : r.t ≤ now
      · simp only [husage, hdue, and_self, if_true]
        by_cases hfull : (r :: rest).length = maxRepl
        · cases rest with
          | nil => simp at hfull
          | cons s rest =>
            obtain ⟨hpop, hdrop⟩ := replQueuePop_represents h
            obtain ⟨j, hheadj, htj, hbj, -⟩ := hpop.head
            have hs : 0 < s.t := (hrest s (by simp)).2
            have hmerged := setEntry_represents (s.b + (r.b - v.usage)) hpop hheadj hs
            obtain ⟨k, hheadk, htk, -, -⟩ := hmerged.head
            obtain ⟨Q, hadd, hQ, hdrop'⟩ := replQueueAdd_represents v.usage (s.t + v.T) hmerged
              (by simp only [List.length_cons] at hfits ⊢; omega) (by omega)
            simp only [hfull, if_true, hheadj, deref_some, ok_bind, htj, hbj, hheadk, htk, hadd]
            exact ⟨Q, rfl, hQ, hdrop'.trans hdrop⟩
        · have hreduced := setEntry_represents (r.b - v.usage) h hhead htpos
          obtain ⟨k, hheadk, htk, -, -⟩ := hreduced.head
          obtain ⟨Q, hadd, hQ, hdrop⟩ := replQueueAdd_represents v.usage (r.t + v.T) hreduced
            (by simp only [List.length_cons] at hfull ⊢; omega) (by omega)
          simp only [hfull, if_false, ok_bind, hheadk, deref_some, htk, hadd]
          exact ⟨Q, rfl, hQ, hdrop⟩
      · simp only [husage, hdue, and_false, if_true, if_false]
        exact ⟨v.Q, rfl, h, rfl⟩
    · simp only [husage, false_and, if_false]
      exact ⟨v.Q, rfl, h, rfl⟩

theorem mergeLoop_represents {Q : ReplQueue} (now usage b fuel : Nat) (hnow : 0 < now)
    (h : Q.Represents (⟨now, b⟩ :: es)) (hfuel : es.length < fuel) :
    ∃ Q', mergeLoop now usage fuel Q = .ok Q' ∧ Q'.Represents (mergeDue now usage b es) ∧
      Q'.dropped = Q.dropped := by
  induction es generalizing Q b fuel with
  | nil =>
    obtain ⟨fuel, rfl⟩ := Nat.exists_eq_add_one_of_ne_zero (by omega : fuel ≠ 0)
    rw [mergeLoop, if_neg (by rw [h.size_eq]; simp)]
    exact ⟨Q, rfl, h, rfl⟩
  | cons s rest ih =>
    obtain ⟨fuel, rfl⟩ := Nat.exists_eq_add_one_of_ne_zero (by omega : fuel ≠ 0)
    obtain ⟨i, hhead, -, hb, hnext⟩ := h.head
    obtain ⟨j, hj, hjt, -⟩ := hnext s rest rfl
    rw [mergeLoop, if_pos (by rw [h.size_eq]; simp), hhead, deref_some, ok_bind, hj, deref_some,
      ok_bind, hb, hjt, mergeDue]
    dsimp only
    split
    · obtain ⟨Q', hmerge, hQ', hdrop⟩ := mergeHead_represents b h hnow
      obtain ⟨Q'', hloop, hQ'', hdrop'⟩ := ih (s.b + b) fuel hQ'
        (by rw [List.length_cons] at hfuel; omega)
      rw [hmerge, ok_bind]
      exact ⟨Q'', hloop, hQ'', hdrop'.trans hdrop⟩
    · exact ⟨Q, rfl, h, rfl⟩

theorem unblockCheck_refines (now1 now2 : Nat) (hle : now1 ≤ now2) (h : v.Q.Represents es)
    (hes : Balanced maxRepl C es) :
    Refines (unblockCheck v now1 now2) v
      (v.usage, Ledger.unblockCheck now1 now2 v.usage es) := by
  unfold unblockCheck
  rw [capacity_eq h]
  cases es with
  | nil => exact absurd rfl hes.nonempty
  | cons r rest =>
    rw [Ledger.unblockCheck]
    split
    · rename_i hcap
      have hdue : r.t ≤ now1 := by
        rw [Ledger.capacity] at hcap
        split at hcap <;> omega
      have hnow : 0 < now2 := by
        have := (Ledger.balanced_cons.mp hes).1.2
        omega
      obtain ⟨i, hhead, -, hb, -⟩ := h.head
      have hmoved := setEntry_represents r.b h hhead hnow
      obtain ⟨Q, hloop, hQ, hdrop⟩ := mergeLoop_represents now2 v.usage r.b
        (v.Q.setEntry i now2 r.b).size hnow hmoved (by rw [hmoved.size_eq]; simp)
      rw [hhead, deref_some, ok_bind, hb]
      dsimp only
      rw [hloop, ok_bind]
      exact ⟨Q, rfl, hQ, hdrop⟩
    · exact ⟨v.Q, rfl, h, rfl⟩

/-- The queue stands for the balanced list `es`, whose head is not used up. -/
structure Sound (v : MainVcpu) (C : Nat) (es : List Entry) : Prop where
  represents : v.Q.Represents es
  balanced : Balanced maxRepl C es
  unspent : Unspent v.usage es

def budget (usage now : Nat) (es : List Entry) : Nat := (Ledger.capacity usage now es).toNat

theorem budget_eq (h : v.Q.Represents es) (now : Nat) :
    (if 0 < capacity v now then (capacity v now).toNat else 0) = budget v.usage now es := by
  rw [capacity_eq h, budget]
  split <;> omega

theorem mainVcpuInit_sound (C T vcpuInitTime : Nat) (hC : 0 < C) (htime : 0 < vcpuInitTime) :
    ∃ Q, mainVcpuInit C T vcpuInitTime = .ok ⟨C, T, 0, 0, Q⟩ ∧
      Sound ⟨C, T, 0, 0, Q⟩ C [⟨vcpuInitTime, C⟩] ∧ Q.dropped = 0 := by
  obtain ⟨Q, hadd, hQ, hdrop⟩ := replQueueAdd_represents C vcpuInitTime zeroed_represents
    (by decide) htime
  refine ⟨Q, ?_, ⟨hQ, Ledger.balanced_cons.mpr ⟨⟨hC, htime⟩, ?_⟩, hC⟩, hdrop⟩
  · rw [mainVcpuInit, hadd, ok_bind]
  · simp

theorem mainVcpuUpdateReplenishments_sound (tcur now : Nat) (h : Sound v C es) :
    mainVcpuUpdateReplenishments v tcur now = { v with b := budget v.usage now es } ∧
      Sound (mainVcpuUpdateReplenishments v tcur now) C es := by
  refine ⟨?_, h.represents, h.balanced, h.unspent⟩
  rw [mainVcpuUpdateReplenishments, budget_eq h.represents]

theorem mainVcpuEndTimeslice_sound (runnable : Bool) (tdelta now1 now2 now3 : Nat)
    (h : Sound v C es) :
    let result := endTimeslice maxRepl v.T runnable (v.usage + tdelta) now1 now2 es
    ∃ Q, mainVcpuEndTimeslice v runnable tdelta now1 now2 now3 =
        .ok { v with b := budget result.1 now3 result.2, usage := result.1, Q := Q } ∧
      Sound { v with b := budget result.1 now3 result.2, usage := result.1, Q := Q } C result.2 ∧
      Q.dropped = v.Q.dropped := by
  intro result
  obtain ⟨hbal, hleft⟩ := endTimeslice_spec (T := v.T) runnable (v.usage + tdelta)
    now1 now2 es (by decide) h.balanced
  obtain ⟨Q, hcall, hQ, hdrop⟩ :=
    budgetCheck_refines (v := { v with usage := v.usage + tdelta }) now1 h.represents h.balanced
  have hbudget := budgetCheck_spec (T := v.T) now1 (v.usage + tdelta) es h.balanced
  suffices hafter : ∃ Q', (if runnable then
        Except.ok { v with
          usage := (Ledger.budgetCheck v.T now1 (v.usage + tdelta) es).1
          Q := Q }
      else splitCheck { v with
        usage := (Ledger.budgetCheck v.T now1 (v.usage + tdelta) es).1
        Q := Q } now2) = .ok { v with usage := result.1, Q := Q' } ∧
      Q'.Represents result.2 ∧ Q'.dropped = v.Q.dropped by
    obtain ⟨Q', hsplit, hQ', hdrop'⟩ := hafter
    refine ⟨Q', ?_, ⟨hQ', hbal, hleft⟩, hdrop'⟩
    rw [mainVcpuEndTimeslice, hcall, ok_bind, hsplit, ok_bind]
    dsimp only
    rw [budget_eq (v := { v with usage := result.1, Q := Q' }) hQ']
  cases runnable with
  | true => exact ⟨Q, rfl, hQ, hdrop⟩
  | false =>
    obtain ⟨Q', hsplit, hQ', hdrop'⟩ := splitCheck_refines (v := { v with
      usage := (Ledger.budgetCheck v.T now1 (v.usage + tdelta) es).1
      Q := Q }) now2 hQ hbudget.1
    exact ⟨Q', hsplit, hQ', hdrop'.trans hdrop⟩

theorem mainVcpuUnblock_sound (now1 now2 : Nat) (hle : now1 ≤ now2) (h : Sound v C es) :
    ∃ Q, mainVcpuUnblock v now1 now2 = .ok { v with Q := Q } ∧
      Sound { v with Q := Q } C (Ledger.unblockCheck now1 now2 v.usage es) ∧
      Q.dropped = v.Q.dropped := by
  obtain ⟨Q, hcall, hQ, hdrop⟩ := unblockCheck_refines now1 now2 hle h.represents h.balanced
  obtain ⟨hbal, hleft⟩ :=
    unblockCheck_spec now1 now2 v.usage es hle h.balanced h.unspent
  exact ⟨Q, hcall, ⟨hQ, hbal, hleft⟩, hdrop⟩

theorem nextEventFrom_eq (Q : ReplQueue) (now : Nat) {slots : List Slot} {r : Option Slot}
    (h : Lib.LinkedList.Chain Q.next r slots) {fuel : Nat} (hfuel : slots.length < fuel) :
    nextEventFrom Q now fuel r = some (nextEvent now (slots.map Q.entry)) := by
  unfold nextEvent
  induction slots generalizing r fuel with
  | nil =>
    obtain ⟨fuel, rfl⟩ := Nat.exists_eq_add_one_of_ne_zero (by omega : fuel ≠ 0)
    obtain rfl : r = none := h
    rfl
  | cons i slots ih =>
    obtain ⟨fuel, rfl⟩ := Nat.exists_eq_add_one_of_ne_zero (by omega : fuel ≠ 0)
    obtain ⟨rfl, hrest⟩ := h
    rw [nextEventFrom, List.map_cons, List.find?_cons]
    by_cases hlater : now < (Q.array i).t
    · simp [hlater, ReplQueue.entry]
    · have hentry : ¬now < (Q.entry i).t := hlater
      simp only [hlater, hentry, if_false, decide_false]
      exact ih hrest (by rw [List.length_cons] at hfuel; omega)

theorem mainVcpuNextEvent_eq (h : v.Q.Represents es) (now : Nat) :
    mainVcpuNextEvent v now = .ok (nextEvent now es) := by
  obtain ⟨slots, hlists, rfl⟩ := h
  have hlen := Nat.lt_succ_of_le hlists.chain.length_le_fin
  rw [mainVcpuNextEvent, nextEventFrom_eq v.Q now hlists.chain hlen, terminated_some]

structure Account where
  es : List Entry
  usage : Nat
  b : Nat

def ledgerServer (T : Nat) : Server Account where
  updateReplenishments a _ tsc := ⟨a.es, a.usage, budget a.usage tsc.first a.es⟩
  nextEvent a tsc := nextEvent tsc.first a.es
  endTimeslice a runnable tdelta tsc :=
    let (usage, es) :=
      endTimeslice maxRepl T runnable (a.usage + tdelta) tsc.first tsc.second a.es
    ⟨es, usage, budget usage tsc.third es⟩
  unblock a tsc := { a with es := Ledger.unblockCheck tsc.first tsc.second a.usage a.es }
  budget := Account.b

theorem head_of_budget {usage now : Nat} {es : List Entry} (h : 0 < budget usage now es) :
    ∃ r rest, es = r :: rest ∧ r.t ≤ now ∧ usage + budget usage now es = r.b := by
  match es with
  | [] => simp [budget, Ledger.capacity] at h
  | r :: rest =>
    simp only [budget, Ledger.capacity] at h ⊢
    split at h
    · simp at h
    · rename_i hdue
      exact ⟨r, rest, rfl, by omega, by omega⟩

/-- The account that a Main VCPU keeps. -/
def Keeps (C T : Nat) (v : MainVcpu) (a : Account) : Prop :=
  Sound v C a.es ∧ v.T = T ∧ v.usage = a.usage ∧ v.b = a.b

theorem mainVcpuInit_keeps (C T vcpuInitTime : Nat) (hC : 0 < C) (htime : 0 < vcpuInitTime) :
    ∃ v, mainVcpuInit C T vcpuInitTime = .ok v ∧ Keeps C T v ⟨[⟨vcpuInitTime, C⟩], 0, 0⟩ := by
  obtain ⟨Q, hinit, hsound, -⟩ := mainVcpuInit_sound C T vcpuInitTime hC htime
  exact ⟨_, hinit, hsound, rfl, rfl, rfl⟩

theorem mainVcpuHooks_simulates (C T : Nat) :
    Simulates (Keeps C T) mainVcpuHooks (ledgerServer T).hooks where
  update v a := by
    rintro ⟨hsound, hT, husage, -⟩ tcur tsc
    obtain ⟨heq, hsound'⟩ := mainVcpuUpdateReplenishments_sound tcur tsc.first hsound
    refine ⟨_, ⟨a.es, a.usage, budget a.usage tsc.first a.es⟩, rfl, rfl, hsound', ?_, ?_, ?_⟩
    · rw [heq, hT]
    · rw [heq, husage]
    · rw [heq, husage]
  endTimeslice v a := by
    rintro ⟨hsound, hT, husage, -⟩ runnable tdelta tsc
    obtain ⟨Q, hcall, hsound', -⟩ :=
      mainVcpuEndTimeslice_sound runnable tdelta tsc.first tsc.second tsc.third hsound
    rw [hT, husage] at hcall hsound'
    exact ⟨_, _, hcall, rfl, hsound', rfl, rfl, rfl⟩
  unblock v a := by
    rintro ⟨hsound, hT, husage, hb⟩ tsc hle
    obtain ⟨Q, hcall, hsound', -⟩ := mainVcpuUnblock_sound tsc.first tsc.second hle hsound
    rw [husage] at hcall hsound'
    exact ⟨_, _, hcall, rfl, hsound', hT, rfl, hb⟩
  budget v a h := h.2.2.2

variable {v' : MainVcpu}

theorem exhaustLoop_period {fuel : Nat} (h : exhaustLoop fuel v = .ok v') : v'.T = v.T := by
  induction fuel generalizing v with
  | zero => cases h
  | succ fuel ih =>
    obtain ⟨i, -, h⟩ := bind_eq_ok.mp h
    dsimp only at h
    split at h
    · obtain ⟨Q, -, h⟩ := bind_eq_ok.mp h
      have hT := ih h
      exact hT
    · cases h
      rfl

theorem budgetCheck_period {now : Nat} (h : budgetCheck v now = .ok v') : v'.T = v.T := by
  unfold budgetCheck at h
  split at h
  · obtain ⟨w, hloop, h⟩ := bind_eq_ok.mp h
    rw [← exhaustLoop_period hloop]
    split at h
    · obtain ⟨i, -, h⟩ := bind_eq_ok.mp h
      dsimp only at h
      split at h
      · obtain ⟨j, -, h⟩ := bind_eq_ok.mp h
        split at h
        · obtain ⟨Q, -, h⟩ := bind_eq_ok.mp h
          cases h
          rfl
        · cases h
          rfl
      · cases h
        rfl
    · cases h
      rfl
  · cases h
    rfl

theorem splitCheck_period {now : Nat} (h : splitCheck v now = .ok v') : v'.T = v.T := by
  unfold splitCheck at h
  split at h
  · obtain ⟨i, -, h⟩ := bind_eq_ok.mp h
    split at h
    · split at h
      · obtain ⟨j, -, h⟩ := bind_eq_ok.mp h
        rw [ok_bind] at h
        obtain ⟨k, -, h⟩ := bind_eq_ok.mp h
        obtain ⟨Q, -, h⟩ := bind_eq_ok.mp h
        cases h
        rfl
      · rw [ok_bind] at h
        obtain ⟨k, -, h⟩ := bind_eq_ok.mp h
        obtain ⟨Q, -, h⟩ := bind_eq_ok.mp h
        cases h
        rfl
    · cases h
      rfl
  · cases h
    rfl

theorem mainVcpuEndTimeslice_period {runnable : Bool} {tdelta now1 now2 now3 : Nat}
    (h : mainVcpuEndTimeslice v runnable tdelta now1 now2 now3 = .ok v') : v'.T = v.T := by
  obtain ⟨w, hcheck, h⟩ := bind_eq_ok.mp h
  obtain ⟨w', hsplit, h⟩ := bind_eq_ok.mp h
  cases h
  have hw := budgetCheck_period hcheck
  split at hsplit
  · cases hsplit
    exact hw
  · exact (splitCheck_period hsplit).trans hw

theorem mainVcpuUnblock_period {now1 now2 : Nat} (h : mainVcpuUnblock v now1 now2 = .ok v')
    : v'.T = v.T := by
  unfold mainVcpuUnblock unblockCheck at h
  split at h
  · obtain ⟨i, -, h⟩ := bind_eq_ok.mp h
    obtain ⟨Q, -, h⟩ := bind_eq_ok.mp h
    cases h
    rfl
  · cases h
    rfl

section Run

variable {guard : Hosted MainVcpu → HostEvent → Prop} [∀ h event, Decidable (guard h event)]

def mainRun (guard : Hosted MainVcpu → HostEvent → Prop) [∀ h event, Decidable (guard h event)]
    (C T vcpuInitTime : Nat) (events : List HostEvent) : Option (Hosted MainVcpu) :=
  match mainVcpuInit C T vcpuInitTime with
  | .ok v => Lib.Reach.replay (Hosted.step mainVcpuHooks) guard (.initial v vcpuInitTime) events
  | .error _ => none

theorem mainRun_reaches {C T vcpuInitTime : Nat} {events : List HostEvent} {v0 : MainVcpu}
    {h : Hosted MainVcpu} (hinit : mainVcpuInit C T vcpuInitTime = .ok v0)
    (hrun : mainRun guard C T vcpuInitTime events = some h) :
    Lib.Reach.Reaches (Hosted.step mainVcpuHooks) guard (.initial v0 vcpuInitTime) h := by
  unfold mainRun at hrun
  rw [hinit] at hrun
  exact Lib.Reach.Reaches.refl.replay hrun

end Run

end Quest.Sched.Sporadic
