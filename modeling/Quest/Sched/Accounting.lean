import Quest.Sched.Conservation

/-! What is charged to a Main VCPU is posted again as replenishments, or still counted in
`usage`. -/
namespace Quest.Sched.Accounting

open Quest.Sched.ReplPool
open Quest.Sched.Sporadic
open Quest.Sched.Conservation
open Quest.Sched.Ledger (Entry Balanced Unspent amount)

def exhaustLoopPosts : Nat → MainVcpu → Except Fault (MainVcpu × List Entry)
  | 0, _ => .error .diverges
  | fuel + 1, v => do
      let h ← deref v.Q.head
      let b := (v.Q.array h).b
      let t := (v.Q.array h).t
      if b ≤ v.usage then
        let Q ← replQueueAdd (replQueuePop v.Q) b (t + v.T)
        let (v, posted) ← exhaustLoopPosts fuel { v with usage := v.usage - b, Q := Q }
        .ok (v, ⟨t + v.T, b⟩ :: posted)
      else .ok (v, [])

def budgetCheckPosts (v : MainVcpu) (now : Nat) : Except Fault (List Entry) :=
  if capacity v now ≤ 0 then Prod.snd <$> exhaustLoopPosts (v.usage + 1) v else .ok []

def splitCheckPosts (v : MainVcpu) (now : Nat) : Except Fault (MainVcpu × List Entry) :=
  if 0 < v.usage then do
    let h ← deref v.Q.head
    if (v.Q.array h).t ≤ now then
      let remnant := (v.Q.array h).b - v.usage
      let Q ← (if v.Q.size = maxRepl then do
          let Q := replQueuePop v.Q
          let h ← deref Q.head
          .ok (Q.setEntry h (Q.array h).t ((Q.array h).b + remnant))
        else
          .ok (v.Q.setEntry h (v.Q.array h).t remnant))
      let h ← deref Q.head
      let t := (Q.array h).t
      let Q ← replQueueAdd Q v.usage (t + v.T)
      .ok ({ v with usage := 0, Q := Q }, [⟨t + v.T, v.usage⟩])
    else .ok (v, [])
  else .ok (v, [])

def endTimeslicePosts (v : MainVcpu) (runnable : Bool) (tdelta now₁ now₂ : Nat) :
    Except Fault (List Entry) := do
  let v := { v with usage := v.usage + tdelta }
  let exhausted ← budgetCheckPosts v now₁
  let v ← budgetCheck v now₁
  let split ← (if runnable then .ok [] else Prod.snd <$> splitCheckPosts v now₂)
  .ok (exhausted ++ split)

def MainCall.posts (v : MainVcpu) : MainCall → Except Fault (List Entry)
  | .updateReplenishments _ _ => .ok []
  | .endTimeslice runnable tdelta now₁ now₂ _ => endTimeslicePosts v runnable tdelta now₁ now₂
  | .unblock _ _ => .ok []

def MainCall.tdelta : MainCall → Nat
  | .updateReplenishments _ _ => 0
  | .endTimeslice _ tdelta _ _ _ => tdelta
  | .unblock _ _ => 0

structure Metered where
  vcpu : MainVcpu
  clock : Nat
  charged : Nat
  posted : List Entry

def meterStep (s : Metered) (call : MainCall) : Except Fault Metered := do
  let posted ← MainCall.posts s.vcpu call
  let (v, clock) ← callStep (s.vcpu, s.clock) call
  .ok ⟨v, clock, s.charged + MainCall.tdelta call, s.posted ++ posted⟩

def MeterForward (s : Metered) (call : MainCall) : Prop := ClockForward (s.vcpu, s.clock) call

variable {v v' : MainVcpu} {es : List Entry} {posted : List Entry} {C now : Nat}

/-! The functions with a log do what those of the source do. -/

theorem exhaustLoopPosts_fst (fuel : Nat) (v : MainVcpu) :
    Prod.fst <$> exhaustLoopPosts fuel v = exhaustLoop fuel v := by
  induction fuel generalizing v with
  | zero => rfl
  | succ fuel ih =>
    simp only [exhaustLoopPosts, exhaustLoop, map_bind]
    congr 1
    funext h
    split
    · simp only [map_bind, ← ih]
      rfl
    · rfl

theorem splitCheckPosts_fst (v : MainVcpu) (now : Nat) :
    Prod.fst <$> splitCheckPosts v now = splitCheck v now := by
  simp only [splitCheckPosts, splitCheck]
  split
  · simp only [map_bind]
    congr 1
    funext h
    split
    · split
      · simp only [map_bind, bind_assoc]
        rfl
      · simp only [map_bind]
        rfl
    · rfl
  · rfl

theorem exhaustLoopPosts_usage {fuel : Nat} (hok : exhaustLoopPosts fuel v = .ok (v', posted)) :
    v.usage = amount posted + v'.usage := by
  induction fuel generalizing v posted with
  | zero => cases hok
  | succ fuel ih =>
    obtain ⟨h, _, hok⟩ := bind_eq_ok.mp hok
    dsimp only at hok
    split at hok
    · obtain ⟨Q, _, hok⟩ := bind_eq_ok.mp hok
      obtain ⟨⟨v1, rest⟩, hloop, hok⟩ := bind_eq_ok.mp hok
      cases hok
      have hrest := ih hloop
      rw [Ledger.amount_cons]
      dsimp only at hrest ⊢
      omega
    · cases hok
      simp

theorem budgetCheck_usage (hok : budgetCheck v now = .ok v') :
    if capacity v now ≤ 0 then ∃ v1, exhaustLoop (v.usage + 1) v = .ok v1 ∧ v'.usage = v1.usage
    else v' = v := by
  unfold budgetCheck at hok
  split at hok
  · rename_i hcap
    rw [if_pos hcap]
    obtain ⟨v1, hloop, hok⟩ := bind_eq_ok.mp hok
    refine ⟨v1, hloop, ?_⟩
    split at hok
    · obtain ⟨h, _, hok⟩ := bind_eq_ok.mp hok
      dsimp only at hok
      split at hok
      · obtain ⟨s, _, hok⟩ := bind_eq_ok.mp hok
        split at hok
        · obtain ⟨Q, _, hok⟩ := bind_eq_ok.mp hok
          cases hok
          rfl
        · cases hok
          rfl
      · cases hok
        rfl
    · cases hok
      rfl
  · rename_i hcap
    rw [if_neg hcap]
    cases hok
    rfl

theorem budgetCheckPosts_usage (hposts : budgetCheckPosts v now = .ok posted)
    (hok : budgetCheck v now = .ok v') : v.usage = amount posted + v'.usage := by
  have husage := budgetCheck_usage hok
  unfold budgetCheckPosts at hposts
  split at hposts
  · rename_i hcap
    rw [if_pos hcap] at husage
    obtain ⟨v1, hloop, hv'⟩ := husage
    obtain ⟨⟨v2, rest⟩, hlog, rfl⟩ := map_eq_ok.mp hposts
    rw [← exhaustLoopPosts_fst, hlog] at hloop
    cases hloop
    rw [hv']
    exact exhaustLoopPosts_usage hlog
  · rename_i hcap
    rw [if_neg hcap] at husage
    cases hposts
    rw [husage]
    simp

theorem splitCheckPosts_usage (hok : splitCheckPosts v now = .ok (v', posted)) :
    v.usage = amount posted + v'.usage := by
  unfold splitCheckPosts at hok
  split at hok
  · obtain ⟨h, _, hok⟩ := bind_eq_ok.mp hok
    split at hok
    · obtain ⟨Q, _, hok⟩ := bind_eq_ok.mp hok
      obtain ⟨h', _, hok⟩ := bind_eq_ok.mp hok
      obtain ⟨Q', _, hok⟩ := bind_eq_ok.mp hok
      cases hok
      simp
    · cases hok
      simp
  · cases hok
    simp

theorem endTimeslicePosts_usage {runnable : Bool} {tdelta now1 now2 now3 : Nat}
    (hposts : endTimeslicePosts v runnable tdelta now1 now2 = .ok posted)
    (hok : mainVcpuEndTimeslice v runnable tdelta now1 now2 now3 = .ok v') :
    v.usage + tdelta = amount posted + v'.usage := by
  obtain ⟨exhausted, hexhausted, hposts⟩ := bind_eq_ok.mp hposts
  obtain ⟨v1, hcheck, hposts⟩ := bind_eq_ok.mp hposts
  obtain ⟨split, hsplit, hposts⟩ := bind_eq_ok.mp hposts
  cases hposts
  rw [mainVcpuEndTimeslice, hcheck, ok_bind] at hok
  obtain ⟨v2, hsplit', hok⟩ := bind_eq_ok.mp hok
  cases hok
  have hfirst := budgetCheckPosts_usage hexhausted hcheck
  have hsecond : v1.usage = amount split + v2.usage := by
    cases runnable with
    | true =>
      cases hsplit
      cases hsplit'
      simp
    | false =>
      obtain ⟨⟨v3, rest⟩, hlog, rfl⟩ := map_eq_ok.mp hsplit
      have hfst := splitCheckPosts_fst v1 now2
      rw [hlog] at hfst
      have hv3 : v3 = v2 := Except.ok.inj (hfst.trans hsplit')
      exact hv3 ▸ splitCheckPosts_usage hlog
  have happ : amount (exhausted ++ split) = amount exhausted + amount split := by
    simp [amount]
  dsimp only at hfirst ⊢
  omega

theorem callPosts_usage {call : MainCall} (hposts : MainCall.posts v call = .ok posted)
    (hok : call.run v = .ok v') : v.usage + MainCall.tdelta call = amount posted + v'.usage := by
  cases call with
  | updateReplenishments tcur now =>
    cases hposts
    cases hok
    simp [MainCall.tdelta, mainVcpuUpdateReplenishments]
  | endTimeslice runnable tdelta now1 now2 now3 => exact endTimeslicePosts_usage hposts hok
  | unblock now1 now2 =>
    cases hposts
    have hsame : v'.usage = v.usage := by
      rw [MainCall.run, mainVcpuUnblock, unblockCheck] at hok
      split at hok
      · obtain ⟨h, _, hok⟩ := bind_eq_ok.mp hok
        obtain ⟨Q, _, hok⟩ := bind_eq_ok.mp hok
        cases hok
        rfl
      · cases hok
        rfl
    simp [MainCall.tdelta, hsame]

/-! The functions with a log return whenever those of the source do. -/

theorem returns_of_fst {α β : Type} {x : Except Fault (α × β)} {a : α}
    (h : Prod.fst <$> x = .ok a) : ∃ b, x = .ok (a, b) := by
  obtain ⟨⟨a', b⟩, hx, rfl⟩ := map_eq_ok.mp h
  exact ⟨b, hx⟩

theorem budgetCheckPosts_returns (hok : budgetCheck v now = .ok v') :
    ∃ posted, budgetCheckPosts v now = .ok posted := by
  have husage := budgetCheck_usage hok
  unfold budgetCheckPosts
  split
  · rename_i hcap
    rw [if_pos hcap] at husage
    obtain ⟨v1, hloop, _⟩ := husage
    obtain ⟨posted, hlog⟩ := returns_of_fst ((exhaustLoopPosts_fst _ v).trans hloop)
    exact ⟨posted, by rw [hlog]; rfl⟩
  · exact ⟨[], rfl⟩

theorem posts_returns {call : MainCall} (hok : call.run v = .ok v') :
    ∃ posted, MainCall.posts v call = .ok posted := by
  cases call with
  | updateReplenishments tcur now => exact ⟨[], rfl⟩
  | unblock now1 now2 => exact ⟨[], rfl⟩
  | endTimeslice runnable tdelta now1 now2 now3 =>
    obtain ⟨v1, hcheck, hok⟩ := bind_eq_ok.mp hok
    obtain ⟨v2, hsplit, _⟩ := bind_eq_ok.mp hok
    obtain ⟨exhausted, hexhausted⟩ := budgetCheckPosts_returns hcheck
    rw [MainCall.posts, endTimeslicePosts, hexhausted, ok_bind, hcheck, ok_bind]
    cases runnable with
    | true => exact ⟨_, rfl⟩
    | false =>
      obtain ⟨split, hlog⟩ := returns_of_fst ((splitCheckPosts_fst v1 now2).trans hsplit)
      simp only [Bool.false_eq_true, if_false, hlog]
      exact ⟨_, rfl⟩

def HeadUnspent (v : MainVcpu) : Prop := ∃ h, v.Q.head = some h ∧ v.usage < (v.Q.array h).b

theorem headUnspent_of {es : List Entry} (hrep : v.Q.Represents es)
    (hleft : Unspent v.usage es) : HeadUnspent v := by
  cases es with
  | nil => exact hleft.elim
  | cons r rest =>
    obtain ⟨i, hhead, _, hb, _⟩ := hrep.head
    exact ⟨i, hhead, hb ▸ hleft⟩

theorem exhaustLoop_returns (h : Sound v C es) (usage : Nat) :
    ∃ v', exhaustLoop (usage + 1) { v with usage := usage } = .ok v' := by
  obtain ⟨Q, hcall, _⟩ := exhaustLoop_refines (v := { v with usage := usage }) (usage + 1)
    h.represents h.balanced (Nat.lt_succ_self usage)
  exact ⟨_, hcall⟩

theorem budgetCheck_unspent (h : Sound v C es) (usage now : Nat) :
    ∃ v', budgetCheck { v with usage := usage } now = .ok v' ∧ HeadUnspent v' := by
  obtain ⟨Q, hcall, hQ, _⟩ :=
    budgetCheck_refines (v := { v with usage := usage }) now h.represents h.balanced
  obtain ⟨_, hleft⟩ := Ledger.budgetCheck_spec (T := v.T) now usage es h.balanced
  exact ⟨_, hcall, headUnspent_of hQ hleft⟩

/-- What was charged is what was posted and the usage that is left; every call returns; and the
head is never used up. -/
theorem usage_accounted (C T vcpuInitTime : Nat) (hC : 0 < C) (htime : 0 < vcpuInitTime) :
    ∃ v0, mainVcpuInit C T vcpuInitTime = .ok v0 ∧
      ∀ s, Lib.Reach.Reaches meterStep MeterForward ⟨v0, vcpuInitTime, 0, []⟩ s →
        s.charged = amount s.posted + s.vcpu.usage ∧
        (∀ call, MeterForward s call → ∃ s', meterStep s call = .ok s') ∧
        (∀ usage, ∃ v', exhaustLoop (usage + 1) { s.vcpu with usage := usage } = .ok v') ∧
        HeadUnspent s.vcpu ∧
        ∀ tdelta now, ∃ v', budgetCheck { s.vcpu with usage := s.vcpu.usage + tdelta } now = .ok v' ∧
          HeadUnspent v' := by
  obtain ⟨Q, hinit, hsound, _⟩ := mainVcpuInit_sound C T vcpuInitTime hC htime
  refine ⟨_, hinit, fun s hreach => ?_⟩
  have hinv : s.charged = amount s.posted + s.vcpu.usage ∧ ∃ es, Sound s.vcpu C es := by
    refine hreach.invariant
      (fun s => s.charged = amount s.posted + s.vcpu.usage ∧ ∃ es, Sound s.vcpu C es)
      ⟨by simp, _, hsound⟩ ?_
    rintro s s' call ⟨hcharged, es, hes⟩ hclock hstep
    obtain ⟨posted, hposts, hstep⟩ := bind_eq_ok.mp hstep
    obtain ⟨⟨v, clock⟩, hcall, hstep⟩ := bind_eq_ok.mp hstep
    cases hstep
    obtain ⟨v', es', hcall', hsound', _⟩ := callStep_sound hes call hclock
    rw [hcall, Except.ok.injEq] at hcall'
    cases hcall'
    obtain ⟨v₁, hrun, hcall⟩ := bind_eq_ok.mp hcall
    cases hcall
    have husage := callPosts_usage hposts hrun
    have happend : amount (s.posted ++ posted) = amount s.posted + amount posted := by
      simp [amount]
    refine ⟨?_, es', hsound'⟩
    dsimp only
    omega
  obtain ⟨hcharged, es, hes⟩ := hinv
  refine ⟨hcharged, fun call hclock => ?_, exhaustLoop_returns hes,
    headUnspent_of hes.represents hes.unspent, fun tdelta now => budgetCheck_unspent hes _ now⟩
  obtain ⟨v', es', hcall, _⟩ := callStep_sound hes call hclock
  have hrun := hcall
  obtain ⟨v₁, hrun, _⟩ := bind_eq_ok.mp hrun
  obtain ⟨posted, hposts⟩ := posts_returns hrun
  rw [meterStep, hposts, ok_bind, hcall, ok_bind]
  exact ⟨_, rfl⟩

theorem usage_accounted_overrun :
    ∃ v0 s, mainVcpuInit 20 100 7 = .ok v0 ∧
      meterStep ⟨v0, 7, 0, []⟩ (.endTimeslice true 25 32 32 32) = .ok s ∧
      s.charged = amount s.posted + s.vcpu.usage := by
  obtain ⟨v0, hinit, hall⟩ := usage_accounted 20 100 7 (by decide) (by decide)
  have hclock : MeterForward ⟨v0, 7, 0, []⟩ (.endTimeslice true 25 32 32 32) := by
    simp [MeterForward, ClockForward, MainCall.readings]
  obtain ⟨s, hs⟩ := (hall _ .refl).2.1 _ hclock
  exact ⟨v0, s, hinit, hs, (hall s (.tail .refl hclock hs)).1⟩

end Quest.Sched.Accounting
