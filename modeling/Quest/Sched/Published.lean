import Quest.Sched.Order
import Quest.Sched.Pibs

/-! The algorithms of `docs/vcpu.tex` for Main and I/O VCPUs, and the hooks as implementations of
them. -/
namespace Quest.Sched.Published

open Quest.Sched.Hooks
open Quest.Sched.ReplPool (maxRepl)
open Quest.Sched.Sporadic
open Quest.Sched.Pibs
open Quest.Sched.Order
open Quest.Sched.Ledger (Entry Balanced Unspent Ordered BeforeThird)

/-! Main VCPUs.  The replenishments `V_R` are a list with `head (V)` and `second (V)` in front. -/

section Main

def delayHead (place : Entry → List Entry → List Entry) (overrun : Nat) : List Entry → List Entry
  | r :: es => place ⟨r.t + overrun, r.b⟩ es
  | [] => []

def mergeHead : List Entry → List Entry
  | r :: s :: es => if s.t ≤ r.t + r.b then ⟨r.t, s.b + r.b⟩ :: es else r :: s :: es
  | es => es

/-- `budget-check`: the new `V_u` and `V_R` -/
def budgetCheck (place : Entry → List Entry → List Entry) (T tcur u : Nat) (R : List Entry) :
    Nat × List Entry :=
  if Ledger.capacity u tcur R ≤ 0 then
    let (u, R) := Ledger.exhaust T (u + 1) u R
    if 0 < u then (u, mergeHead (delayHead place u R)) else (u, R)
  else (u, R)

structure Main where
  b : Int
  u : Nat
  R : List Entry
  deriving DecidableEq

def Main.endOfTimeslice (place : Entry → List Entry → List Entry) (T : Nat) (V : Main)
    (runnable : Bool) (tdelta tcur : Nat) : Main :=
  let (u, R) := budgetCheck place T tcur (V.u + tdelta) V.R
  if 0 < Ledger.capacity u tcur R then
    let (u, R) := if runnable then (u, R) else Ledger.splitCheck maxRepl T tcur u R
    ⟨Ledger.capacity u tcur R, u, R⟩
  else ⟨0, u, R⟩

def Main.ofVcpu (v : MainVcpu) : Main := ⟨v.b, v.usage, v.Q.toList⟩

variable {C T u tcur : Nat} {es : List Entry} {v : MainVcpu}

theorem capacity_nonneg (h : Unspent u es) (tcur : Nat) : 0 ≤ Ledger.capacity u tcur es := by
  cases es with
  | nil => exact le_rfl
  | cons r es =>
    rw [Ledger.unspent_cons] at h
    rw [Ledger.capacity]
    split <;> omega

theorem splitCheck_of_no_capacity {limit : Nat} (h : Unspent u es)
    (hcap : Ledger.capacity u tcur es ≤ 0) :
    Ledger.splitCheck limit T tcur u es = (u, es) := by
  cases es with
  | nil => rfl
  | cons r es =>
    rw [Ledger.unspent_cons] at h
    have hlater : tcur < r.t := by
      by_contra hdue
      rw [Ledger.capacity, if_neg hdue] at hcap
      omega
    simp only [Ledger.splitCheck, hlater.not_ge, and_false, if_false]

theorem mergeHead_delayHead_cons (overrun : Nat) (es : List Entry) :
    mergeHead (delayHead List.cons overrun es) = Ledger.postpone overrun es := by
  match es with
  | [] => rfl
  | [r] => rfl
  | r :: s :: es => rfl

theorem budgetCheck_cons (T tcur u : Nat) (es : List Entry) :
    budgetCheck List.cons T tcur u es = Ledger.budgetCheck T tcur u es := by
  simp only [budgetCheck, Ledger.budgetCheck, mergeHead_delayHead_cons]

theorem endOfTimeslice_cons {V : Main} {runnable : Bool} {tdelta : Nat}
    (hes : Balanced maxRepl C V.R) :
    V.endOfTimeslice List.cons T runnable tdelta tcur =
      let result := Ledger.endTimeslice maxRepl T runnable (V.u + tdelta) tcur tcur V.R
      ⟨budget result.1 tcur result.2, result.1, result.2⟩ := by
  obtain ⟨hbal, hleft⟩ := Ledger.budgetCheck_spec (T := T) tcur (V.u + tdelta) V.R hes
  have hslice := Ledger.endTimeslice_spec (T := T) runnable (V.u + tdelta) tcur tcur V.R
    (by decide) hes
  have hnonneg := capacity_nonneg hslice.2 tcur
  unfold Main.endOfTimeslice Ledger.endTimeslice at *
  rw [budgetCheck_cons]
  dsimp only at *
  split
  · rename_i hcap
    rw [budget, Int.toNat_of_nonneg hnonneg]
  · rename_i hcap
    have hsame : (if runnable = true then
          ((Ledger.budgetCheck T tcur (V.u + tdelta) V.R).1,
            (Ledger.budgetCheck T tcur (V.u + tdelta) V.R).2)
        else Ledger.splitCheck maxRepl T tcur (Ledger.budgetCheck T tcur (V.u + tdelta) V.R).1
          (Ledger.budgetCheck T tcur (V.u + tdelta) V.R).2) =
        Ledger.budgetCheck T tcur (V.u + tdelta) V.R := by
      split
      · rfl
      · rw [splitCheck_of_no_capacity hleft (by omega)]
    rw [hsame, budget, Int.toNat_of_nonpos (by omega)]
    rfl

theorem mainVcpuEndTimeslice_in_place (h : Sound v C es) (runnable : Bool) (tdelta now : Nat) :
    ∃ v', mainVcpuEndTimeslice v runnable tdelta now now now = .ok v' ∧
      Main.ofVcpu v' =
        (Main.ofVcpu v).endOfTimeslice List.cons v.T runnable tdelta now := by
  obtain ⟨Q, hcall, hsound, -⟩ := mainVcpuEndTimeslice_sound runnable tdelta now now now h
  refine ⟨_, hcall, ?_⟩
  have hlist : v.Q.toList = es := h.represents.toList_eq
  have hlist' := hsound.represents.toList_eq
  rw [endOfTimeslice_cons (C := C) (by rw [Main.ofVcpu, hlist]; exact h.balanced)]
  dsimp only [Main.ofVcpu] at *
  rw [hlist', hlist]

/-- An overrun does not carry the head beyond the second replenishment. -/
def BeforeSecond (overrun : Nat) : List Entry → Prop
  | first :: second :: _ => first.t + overrun ≤ second.t
  | _ => True

instance (overrun : Nat) : (es : List Entry) → Decidable (BeforeSecond overrun es)
  | [] => isTrue trivial
  | [_] => isTrue trivial
  | first :: second :: _ => inferInstanceAs (Decidable (first.t + overrun ≤ second.t))

theorem BeforeSecond.beforeThird (h : BeforeSecond u es) (hord : Ordered es) :
    BeforeThird u es := by
  match es with
  | [] => trivial
  | [r] => trivial
  | [r, s] => trivial
  | r :: s :: q :: es =>
    have hlater : s.t ≤ q.t := List.rel_of_pairwise_cons hord.of_cons (by simp)
    exact le_trans h hlater

theorem delayHead_insert (h : BeforeSecond u es) :
    delayHead Ledger.insert u es = delayHead List.cons u es := by
  match es with
  | [] => rfl
  | [r] => rfl
  | r :: s :: es => exact List.orderedInsert_cons_of_le _ _ h

/-- Some of the head is left or, when the replenishments that are used up have been moved a period
ahead, the rest does not carry the first of them beyond the second. -/
def HeadStays (T usage : Nat) : List Entry → Prop
  | [] => True
  | r :: es => r.b ≤ usage →
      BeforeSecond (Ledger.exhaust T (usage + 1) usage (r :: es)).1
        (Ledger.exhaust T (usage + 1) usage (r :: es)).2

instance (T usage : Nat) : (es : List Entry) → Decidable (HeadStays T usage es)
  | [] => isTrue trivial
  | _ :: _ => inferInstanceAs (Decidable (_ → _))

theorem HeadStays.overrunFits {usage : Nat} (h : HeadStays T usage es) (hord : Ordered es) :
    OverrunFits T usage es := by
  cases es with
  | nil => trivial
  | cons r es =>
    intro hless
    exact (h hless.le).beforeThird (Ledger.exhaust_ordered _ _ hord)

theorem budgetCheck_insert {usage : Nat} {r : Entry} (hdue : r.t ≤ tcur)
    (h : HeadStays T usage (r :: es)) :
    budgetCheck Ledger.insert T tcur usage (r :: es) =
      budgetCheck List.cons T tcur usage (r :: es) := by
  simp only [budgetCheck]
  split
  · rename_i hcap
    rw [Ledger.capacity, if_neg (not_lt.mpr hdue)] at hcap
    rw [delayHead_insert (h (by omega))]
  · rfl

/-- The events of a run in which no overrun carries the head beyond the second replenishment. -/
def HeadKept (h : Hosted MainVcpu) (event : HostEvent) : Prop :=
  ClockForward h event ∧
    match event with
    | .wakeup _ _ _ => True
    | .schedule tcur _ _ _ => h.running = true →
        HeadStays h.server.T (h.server.usage + (tcur - h.tprev)) h.server.Q.toList

instance (h : Hosted MainVcpu) : (event : HostEvent) → Decidable (HeadKept h event)
  | .wakeup _ _ _ => inferInstanceAs (Decidable (_ ∧ True))
  | .schedule _ _ _ _ => inferInstanceAs (Decidable (_ ∧ (_ → _)))

theorem mainVcpuEndTimeslice_published (h : Sound v C es) {runnable : Bool} {tdelta now : Nat}
    (hdue : ∀ r ∈ es.head?, r.t ≤ now) (hstays : HeadStays v.T (v.usage + tdelta) es) :
    ∃ v', mainVcpuEndTimeslice v runnable tdelta now now now = .ok v' ∧
      Main.ofVcpu v' =
        (Main.ofVcpu v).endOfTimeslice Ledger.insert v.T runnable tdelta now := by
  obtain ⟨v', hcall, hv'⟩ := mainVcpuEndTimeslice_in_place h runnable tdelta now
  obtain ⟨r, es, rfl⟩ := List.exists_cons_of_ne_nil h.balanced.nonempty
  refine ⟨v', hcall, hv'.trans ?_⟩
  simp only [Main.endOfTimeslice, Main.ofVcpu, h.represents.toList_eq,
    budgetCheck_insert (hdue r rfl) hstays]

end Main

section Io

/-- What an I/O VCPU of the document has.  The replenishment is a pair of `r_t` and `r_b`, if it is
valid. -/
structure Io where
  T : ℚ
  U : ℚ
  b : ℚ
  u : ℚ
  e : ℚ
  r : Option (ℚ × ℚ)
  budgeted : Bool

def Io.cmax (V : Io) : ℚ := V.T * V.U

def Io.endOfTimeslice (V : Io) (runnable : Bool) (tdelta : ℚ) : Io :=
  let b := max 0 (V.b - tdelta)
  let u := V.u + tdelta
  if runnable = false ∨ b = 0 then
    let e := V.e + u / V.U
    { V with
      b := 0
      u := 0
      e := e
      r := some (e, (V.r.map Prod.snd).getD V.cmax)
      budgeted := if runnable then V.budgeted else false }
  else { V with b := b, u := u }

def Io.inherit (V : Io) (MT : ℚ) (running runnable : Bool) : Io :=
  if MT < V.T ∨ ¬(running = true ∨ runnable = true) then { V with T := MT } else V

def Io.unblock (V : Io) (MT : ℚ) (running runnable : Bool) (tcur : ℚ) : Io :=
  let V := V.inherit MT running runnable
  let e := if running = false ∧ V.e < tcur then tcur else V.e
  { V with
    e := e
    r := match V.r with
      | none => if V.budgeted then none else some (e, V.cmax)
      | some r => some (r.1, V.cmax)
    budgeted := true }

def replenishment (r : Entry) : Option (Nat × Nat) := if r.t = 0 then none else some (r.t, r.b)

def Io.ofVcpu (v : IoVcpu) : Io where
  T := v.T
  U := v.Unum / v.Uden
  b := v.b
  u := v.usage
  e := v.e
  r := (replenishment v.r).map fun r => (↑r.1, ↑r.2)
  budgeted := v.budgeted

/-- The VCPU is that of the document, each number rounded down. -/
structure Rounds (v : IoVcpu) (V : Io) : Prop where
  b : v.b = ⌊V.b⌋₊
  usage : v.usage = ⌊V.u⌋₊
  e : v.e = ⌊V.e⌋₊
  r : replenishment v.r = V.r.map fun r => (⌊r.1⌋₊, ⌊r.2⌋₊)
  budgeted : v.budgeted = V.budgeted

variable {v : IoVcpu}

theorem floor_cmax (T Unum Uden : Nat) : ⌊(T : ℚ) * (Unum / Uden)⌋₊ = T * Unum / Uden := by
  rw [← mul_div_assoc, ← Nat.cast_mul, Nat.floor_div_eq_div]

theorem floor_eligible (e usage Unum Uden : Nat) :
    ⌊(e : ℚ) + usage / (Unum / Uden)⌋₊ = e + usage * Uden / Unum := by
  rw [add_comm, Nat.floor_add_natCast (by positivity), div_div_eq_mul_div, ← Nat.cast_mul,
    Nat.floor_div_eq_div, add_comm]

theorem replenishment_pos {t : Nat} (b : Nat) (ht : 0 < t) : replenishment ⟨t, b⟩ = some (t, b) :=
  if_neg ht.ne'

theorem eligible_unblock (e now : Nat) :
    (if e < now then now else e) = max e now ∧
      (if (e : ℚ) < now then (now : ℚ) else e) = (max e now : Nat) := by
  obtain hlt | hle := Nat.lt_or_ge e now
  · rw [if_pos hlt, if_pos (Nat.cast_lt.mpr hlt), Nat.max_eq_right hlt.le]
    exact ⟨rfl, rfl⟩
  · rw [if_neg hle.not_gt, if_neg (Nat.cast_lt.not.mpr hle.not_gt), Nat.max_eq_left hle]
    exact ⟨rfl, rfl⟩

theorem ioVcpuUnblock_rounds {now : Nat} (hbudgeted : v.budgeted = false) (hnow : 0 < now)
    (T : Nat) :
    Rounds (ioVcpuUnblock { v with T := T } now) ((Io.ofVcpu v).unblock T false false now) := by
  obtain ⟨hhook, hdocument⟩ := eligible_unblock v.e now
  have hinherit : (Io.ofVcpu v).inherit T false false = { Io.ofVcpu v with T := T } :=
    if_pos (.inr (by simp))
  have hpos : 0 < max v.e now := lt_max_of_lt_right hnow
  unfold ioVcpuUnblock Io.unblock
  rw [hinherit]
  simp only [Io.ofVcpu, IoVcpu.cmax, Io.cmax, hbudgeted, true_and, Bool.false_eq_true, if_false,
    hhook, hdocument]
  generalize max v.e now = e at hpos
  refine ⟨?_, ?_, ?_, ?_, rfl⟩
  · simp
  · simp
  · simp
  · by_cases hvalid : v.r.t = 0
    · rw [if_pos hvalid, replenishment_pos _ hpos, replenishment, if_pos hvalid]
      simp [floor_cmax]
    · rw [if_neg hvalid, replenishment_pos _ (Nat.pos_of_ne_zero hvalid), replenishment,
        if_neg hvalid]
      simp [floor_cmax]

theorem ioVcpuEndTimeslice_rounds (he : 0 < v.e) (runnable : Bool) (tdelta : Nat) :
    Rounds (ioVcpuEndTimeslice v runnable tdelta)
      ((Io.ofVcpu v).endOfTimeslice runnable tdelta) := by
  have hb : max 0 ((v.b : ℚ) - tdelta) = (v.b - tdelta : Nat) := by
    obtain hle | hle := Nat.le_total v.b tdelta
    · rw [Nat.sub_eq_zero_of_le hle, max_eq_left (by simpa using hle), Nat.cast_zero]
    · rw [Nat.cast_sub hle, max_eq_right (by simpa using hle)]
  have hfold : (runnable = false ∨ ((v.b - tdelta : Nat) : ℚ) = 0) ↔
      (runnable = false ∨ v.b ≤ tdelta) := by
    rw [Nat.cast_eq_zero, Nat.sub_eq_zero_iff_le]
  rw [ioVcpuEndTimeslice_eq]
  simp only [Io.endOfTimeslice, Io.ofVcpu, hb, hfold]
  split
  · refine ⟨?_, ?_, ?_, ?_, rfl⟩
    · simp [fold]
    · simp [fold]
    · dsimp only [fold]
      rw [← Nat.cast_add, floor_eligible]
    · dsimp only [fold]
      rw [← Nat.cast_add, Option.map_some, floor_eligible]
      by_cases hvalid : v.r.t = 0
      · rw [if_pos hvalid, replenishment_pos _ (Nat.add_pos_left he _), replenishment,
          if_pos hvalid]
        simp [Io.cmax, IoVcpu.cmax, floor_cmax]
      · rw [if_neg hvalid, replenishment_pos _ (Nat.add_pos_left he _), replenishment,
          if_neg hvalid]
        simp
  · refine ⟨?_, ?_, ?_, ?_, rfl⟩
    · simp
    · rw [← Nat.cast_add, Nat.floor_natCast]
    · simp
    · cases replenishment v.r <;> simp

/-! In every state of a run the flags say what the hooks take them for. -/

/-- A VCPU that is neither running nor runnable is not budgeted, and one that has been woken has an
eligibility time. -/
structure Flagged (h : Hosted IoVcpu) : Prop where
  clock : 0 < h.clock
  idle : h.busy = false → h.server.budgeted = false
  busy : h.busy = true → 0 < h.server.e

variable {h h' : Hosted IoVcpu}

theorem eligible_pos {now : Nat} (hbudgeted : v.budgeted = false) (hnow : 0 < now) :
    0 < (ioVcpuUnblock v now).e := by
  simp only [ioVcpuUnblock, hbudgeted, true_and, (eligible_unblock v.e now).1]
  exact lt_max_of_lt_right hnow

theorem flagged_alternate : Alternate (fun v => 0 < v.e) (fun v => v.budgeted = false) where
  update v tcur h := by
    rw [eligibility_update]
    exact h
  endTimeslice v runnable tdelta h := lt_of_lt_of_le h (eligibility_endTimeslice v runnable tdelta)
  sleep v tdelta _ := by
    rfl
  unblock v woken tcur h hwoken _ := by
    rw [eligibility_update]
    exact eligible_pos h hwoken

theorem flagged_step {event : IoEvent} (hflag : Flagged h) (hclock : IoClockForward h event)
    (hstep : ioStep h event = .ok h') : Flagged h' := by
  obtain ⟨hstart, hbusy, hidle⟩ := phased_step flagged_alternate
    { hflag with } hclock
    (by cases event with
      | host event => trivial
      | _ => exact { hflag with }) hstep
  exact ⟨hstart, hidle, hbusy⟩

end Io

/-- The hooks implement the algorithms of the document: for a Main VCPU as long as no overrun
carries the head beyond the second replenishment, for an I/O VCPU up to rounding down. -/
theorem hooks_published (C T vcpuInitTime : Nat) (hC : 0 < C) (htime : 0 < vcpuInitTime)
    (Unum Uden tscUnitFreq : Nat) :
    (∃ v0, mainVcpuInit C T vcpuInitTime = .ok v0 ∧
      ∀ h, Lib.Reach.Reaches (Hosted.step mainVcpuHooks) HeadKept
          (Hosted.initial v0 vcpuInitTime) h →
        Ordered h.server.Q.toList ∧
        ∀ tcur now, h.running = true → h.clock ≤ tcur → tcur ≤ now →
          HeadStays h.server.T (h.server.usage + (tcur - h.tprev)) h.server.Q.toList →
          ∃ v', mainVcpuEndTimeslice h.server h.runnable (tcur - h.tprev) now now now = .ok v' ∧
            Main.ofVcpu v' = (Main.ofVcpu h.server).endOfTimeslice Ledger.insert h.server.T
              h.runnable (tcur - h.tprev) now) ∧
    ∀ h, Lib.Reach.Reaches ioStep IoClockForward
        (Hosted.initial (ioVcpuInit Unum Uden tscUnitFreq) vcpuInitTime) h →
      (∀ MT now, h.busy = false → h.clock ≤ now →
        Rounds (ioVcpuUnblock { h.server with T := MT } now)
          ((Io.ofVcpu h.server).unblock MT h.running h.runnable now)) ∧
      ∀ tcur, h.running = true →
        Rounds (ioVcpuEndTimeslice h.server h.runnable (tcur - h.tprev))
          ((Io.ofVcpu h.server).endOfTimeslice h.runnable (tcur - h.tprev : Nat)) := by
  obtain ⟨v0, hinit, hkeeps⟩ := mainVcpuInit_keeps C T vcpuInitTime hC htime
  refine ⟨⟨v0, hinit, fun h hreach => ?_⟩, fun h hreach => ?_⟩
  · obtain ⟨k, ⟨⟨hsound, -, -, -⟩, hk⟩, hsorted⟩ := sorted_of_reaches hkeeps
      (fun h event hevent => hevent.1)
      (fun h tcur endTsc scan update hevent hrunning hordered =>
        (hevent.2 hrunning).overrunFits hordered) hreach
    have hlist := hsound.represents.toList_eq
    refine ⟨hlist ▸ hsorted.ordered, fun tcur now hrunning hclock hnow hstays => ?_⟩
    apply mainVcpuEndTimeslice_published hsound
    · intro r hr
      have hdue := hsorted.due (by rw [hk]; exact hrunning) r hr
      rw [hk] at hdue
      dsimp only at hdue
      omega
    · exact hlist ▸ hstays
  · have hflagged : Flagged h := by
      refine hreach.invariant Flagged ⟨htime, fun _ => rfl, nofun⟩ ?_
      intro h h' event hflagged hclock hstep
      exact flagged_step hflagged hclock hstep
    refine ⟨fun MT now hidle hclock => ?_, fun tcur hrunning => ?_⟩
    · have hflags := hidle
      rw [Hosted.busy, Bool.or_eq_false_iff] at hflags
      rw [hflags.1, hflags.2]
      exact ioVcpuUnblock_rounds (hflagged.idle hidle) (lt_of_lt_of_le hflagged.clock hclock) MT
    · have hbusy := hflagged.busy (by rw [Hosted.busy, hrunning, Bool.or_true])
      exact ioVcpuEndTimeslice_rounds hbusy h.runnable (tcur - h.tprev)

def postponedEvents : List HostEvent :=
  [.wakeup (.at 1) 1 (.at 1), .schedule 3 (.at 3) (.choose false) (.at 3),
    .schedule 11 (.at 11) .skip (.at 11), .wakeup (.at 11) 11 (.at 11),
    .schedule 11 (.at 11) (.choose false) (.at 11), .schedule 20 (.at 20) .skip (.at 20),
    .wakeup (.at 21) 21 (.at 21), .schedule 26 (.at 26) (.choose true) (.at 26)]

theorem hooks_published_first_timeslice :
    ∃ v0 h v', mainVcpuInit 6 8 1 = .ok v0 ∧
      Lib.Reach.Reaches (Hosted.step mainVcpuHooks) HeadKept (Hosted.initial v0 1) h ∧
      mainVcpuEndTimeslice h.server h.runnable (11 - h.tprev) 11 11 11 = .ok v' ∧
      Main.ofVcpu v' =
        (Main.ofVcpu h.server).endOfTimeslice Ledger.insert h.server.T h.runnable (11 - h.tprev)
          11 ∧
      Rounds (ioVcpuUnblock { ioVcpuInit 1 10 1 with T := 50 } 4)
        ((Io.ofVcpu (ioVcpuInit 1 10 1)).unblock 50 false false 4) := by
  obtain ⟨⟨v0, hinit, hmain⟩, hio⟩ := hooks_published 6 8 1 (by decide) (by decide) 1 10 1
  have hrun : (mainRun HeadKept 6 8 1 (postponedEvents.take 2)).map (fun h =>
      (h.running, h.clock, decide (HeadStays h.server.T (h.server.usage + (11 - h.tprev))
        h.server.Q.toList))) = some (true, 3, true) := by decide
  obtain ⟨h, hh, hfacts⟩ := Option.map_eq_some_iff.mp hrun
  simp only [Prod.mk.injEq, decide_eq_true_eq] at hfacts
  obtain ⟨hrunning, hclock, hstays⟩ := hfacts
  have hreach := mainRun_reaches hinit hh
  obtain ⟨v', hcall, hv'⟩ := (hmain h hreach).2 11 11 hrunning (by omega) (by decide) hstays
  have hidle := (hio _ .refl).1 50 4 rfl (by decide)
  exact ⟨v0, h, v', hinit, hreach, hcall, hv', hidle⟩

/-- The hook leaves a head that is not the earliest replenishment, and a budget where the document
leaves none. -/
theorem head_put_off_past_second :
    ∃ v0 h, mainVcpuInit 6 8 1 = .ok v0 ∧
      Lib.Reach.Reaches (Hosted.step mainVcpuHooks) ClockForward (Hosted.initial v0 1) h ∧
      h.running = true ∧ h.clock = 26 ∧
      (mainVcpuEndTimeslice h.server h.runnable (30 - h.tprev) 30 30 30).toOption.map
        Main.ofVcpu = some ⟨2, 3, [⟨30, 5⟩, ⟨29, 1⟩]⟩ ∧
      (Main.ofVcpu h.server).endOfTimeslice Ledger.insert h.server.T h.runnable (30 - h.tprev) 30 =
        ⟨0, 3, [⟨28, 2⟩, ⟨30, 4⟩]⟩ := by
  have hrun : (mainRun ClockForward 6 8 1 postponedEvents).map (fun h =>
      (h.running, h.clock,
        (mainVcpuEndTimeslice h.server h.runnable (30 - h.tprev) 30 30 30).toOption.map
          Main.ofVcpu,
        (Main.ofVcpu h.server).endOfTimeslice Ledger.insert h.server.T h.runnable (30 - h.tprev)
          30)) =
        some (true, 26, some ⟨2, 3, [⟨30, 5⟩, ⟨29, 1⟩]⟩, ⟨0, 3, [⟨28, 2⟩, ⟨30, 4⟩]⟩) := by decide
  obtain ⟨Q, hinit, -⟩ := mainVcpuInit_sound 6 8 1 (by decide) (by decide)
  obtain ⟨h, hh, hfacts⟩ := Option.map_eq_some_iff.mp hrun
  simp only [Prod.mk.injEq] at hfacts
  exact ⟨_, h, hinit, mainRun_reaches hinit hh, hfacts⟩

end Quest.Sched.Published
