import Quest.Lib.Reach
import Quest.Sched.Queue

/-! The requests to USB mass storage, `drivers/usb/umsc.c`: tasks hand them to `umsc_thread`
through one slot and get the sector through one buffer. -/
namespace Quest.Drivers.Umsc

open Quest.Lib Reach Sched.Queue Function

structure Request where
  devIndex : Nat
  lba : Nat
  len : Nat
  deriving DecidableEq, Repr

structure Reply (σ : Type) where
  res : Int
  sector : σ
  deriving DecidableEq, Repr

structure Devices where
  num : Nat
  sectorSize : Nat → Nat

/-- The checks of `umsc_read_sector`; it returns 0 at once where one fails. -/
def Devices.Accepts (devs : Devices) (r : Request) : Prop :=
  r.devIndex < devs.num ∧ devs.sectorSize r.devIndex ≤ r.len

instance (devs : Devices) (r : Request) : Decidable (devs.Accepts r) := by
  unfold Devices.Accepts
  infer_instance

inductive Place where
  | outside
  /-- at the test of `umsc_cur_task` -/
  | testing (r : Request)
  /-- in `schedule`, on `umsc_waitq` -/
  | waiting (r : Request)
  /-- in `schedule`, until the thread is done with the request -/
  | sent (r : Request)
  /-- before the copy of the sector -/
  | copying (r : Request)
  deriving DecidableEq, Repr

def Place.Running : Place → Prop
  | .testing _ | .copying _ => True
  | .outside | .waiting _ | .sent _ => False

instance (place : Place) : Decidable place.Running := by
  cases place <;> unfold Place.Running <;> infer_instance

def Place.Served : Place → Prop
  | .sent _ | .copying _ => True
  | .outside | .testing _ | .waiting _ => False

instance (place : Place) : Decidable place.Served := by
  cases place <;> unfold Place.Served <;> infer_instance

/-- `umsc_thread`: in `iovcpu_job_completion`, or in `_umsc_read_sector` with its arguments. -/
inductive Thread where
  | blocked
  | transfer (r : Request)
  deriving DecidableEq, Repr

/-- The variables of the driver, the thread, the places of the tasks and who was woken, the holder
of the kernel lock, and what the calls returned. -/
structure State (τ σ : Type) where
  curTask : Option τ
  waitq : List τ
  cur : Request
  curSector : σ
  curRes : Int
  thread : Thread
  threadWoken : Bool
  place : τ → Place
  woken : τ → Bool
  lock : Option τ
  returned : List (Request × Reply σ)

inductive Event (τ σ : Type) where
  | call (t : τ) (r : Request)
  | test (t : τ)
  | resume (t : τ)
  | finish (t : τ)
  | thread
  | answer (reply : Reply σ)

variable {τ σ : Type} [DecidableEq τ]

namespace State

def goto (s : State τ σ) (t : τ) (place : Place) : State τ σ :=
  { s with place := update s.place t place }

def schedule (s : State τ σ) (t : τ) (place : Place) : State τ σ :=
  { s with
    place := update s.place t place, woken := update s.woken t false, lock := none }

def call (devs : Devices) (s : State τ σ) (t : τ) (r : Request) : State τ σ :=
  if devs.Accepts r then { s with lock := some t }.goto t (.testing r) else s

def test (s : State τ σ) (t : τ) (r : Request) : State τ σ :=
  if s.curTask.isSome then
    { s with waitq := appendAbsent s.waitq t }.schedule t (.waiting r)
  else
    { s with cur := r, curTask := some t, threadWoken := true }.schedule t (.sent r)

def resume (s : State τ σ) (t : τ) : State τ σ :=
  let s := { s with lock := some t }
  match s.place t with
  | .waiting r => s.goto t (.testing r)
  | .sent r => s.goto t (.copying r)
  | _ => s

def finish (s : State τ σ) (t : τ) (r : Request) : State τ σ :=
  { s with
    waitq := [], woken := fun u => s.woken u || decide (u ∈ s.waitq), lock := none,
    returned := (r, ⟨s.curRes, s.curSector⟩) :: s.returned }.goto t .outside

def runThread (s : State τ σ) : State τ σ :=
  match s.curTask with
  | some _ => { s with thread := .transfer s.cur, threadWoken := false }
  | none => { s with threadWoken := false }

def answer (s : State τ σ) (reply : Reply σ) : State τ σ :=
  { s with
    curRes := reply.res, curSector := reply.sector, curTask := none, thread := .blocked,
    woken := match s.curTask with
      | some t => update s.woken t true
      | none => s.woken }

def step (devs : Devices) (s : State τ σ) : Event τ σ → Except Fault (State τ σ)
  | .call t r => .ok (s.call devs t r)
  | .test t =>
      match s.place t with
      | .testing r => .ok (s.test t r)
      | _ => .ok s
  | .resume t => .ok (s.resume t)
  | .finish t =>
      match s.place t with
      | .copying r => .ok (s.finish t r)
      | _ => .ok s
  | .thread => .ok s.runThread
  | .answer reply => .ok (s.answer reply)

/-- Only the holder of the kernel lock runs, and only a task that was woken resumes. -/
def Enabled (Answers : Request → Reply σ → Prop) (s : State τ σ) : Event τ σ → Prop
  | .call t _ => s.lock = none ∧ s.place t = .outside
  | .test t => s.lock = some t ∧ ∃ r, s.place t = .testing r
  | .resume t => s.lock = none ∧ s.woken t = true ∧
      ∃ r, s.place t = .waiting r ∨ s.place t = .sent r
  | .finish t => s.lock = some t ∧ ∃ r, s.place t = .copying r
  | .thread => s.lock = none ∧ s.thread = .blocked ∧ s.threadWoken = true
  | .answer reply => s.lock = none ∧ ∃ r, s.thread = .transfer r ∧ Answers r reply

def init (sector : σ) : State τ σ :=
  ⟨none, [], ⟨0, 0, 0⟩, sector, 0, .blocked, true, fun _ => .outside, fun _ => false, none, []⟩

/-- No task puts a request into the slot before the sector of the last one was copied. -/
def Patient (Answers : Request → Reply σ → Prop) (s : State τ σ) (e : Event τ σ) : Prop :=
  s.Enabled Answers e ∧ ∀ t, e = .test t → s.curTask = none → ∀ u, ¬(s.place u).Served

def Old (Answers : Request → Reply σ → Prop) (s : State τ σ) (e : Event τ σ) : Prop :=
  s.Enabled Answers e ∧ ∀ t r, e ≠ .call t r

/-- The slot holds the request of a task that sleeps and of a thread that will run, who waits for
the slot is woken by a task that has a request or a reply. -/
structure Inv (s : State τ σ) : Prop where
  running : ∀ t, (s.place t).Running ↔ s.lock = some t
  waits : ∀ t r, s.place t = .waiting r → t ∈ s.waitq ∨ s.woken t = true
  queued : ∀ t ∈ s.waitq, (∃ r, s.place t = .waiting r) ∧ s.woken t = false
  wakes : s.waitq ≠ [] → ∃ t, (s.place t).Served
  slot : ∀ t, s.curTask = some t → s.place t = .sent s.cur ∧ s.woken t = false ∧
    (s.thread = .blocked → s.threadWoken = true)
  busy : ∀ r, s.thread = .transfer r → r = s.cur ∧ s.curTask ≠ none
  served : ∀ t r, s.place t = .sent r → s.curTask ≠ some t → s.woken t = true

variable {Answers : Request → Reply σ → Prop} {devs : Devices} {s s' : State τ σ} {t u : τ}
  {e : Event τ σ} {r : Request} {sector : σ}

omit [DecidableEq τ] in
theorem inv_init : (init sector : State τ σ).Inv := by
  refine ⟨?_, ?_, ?_, ?_, ?_, ?_, ?_⟩ <;> simp [init, Place.Running]

theorem Inv.call (h : s.Inv) (hlock : s.lock = none) (hout : s.place t = .outside) :
    (s.call devs t r).Inv := by
  rw [State.call]
  split
  · obtain ⟨hrun, hwaits, hqueued, hwakes, hslot, hbusy, hserved⟩ := h
    constructor <;> simp only [goto, update_apply]
    case running => grind [Place.Running]
    case wakes =>
      intro hq
      obtain ⟨u, hu⟩ := hwakes hq
      refine ⟨u, ?_⟩
      grind [Place.Served]
    all_goals grind
  · exact h

theorem Inv.test (h : s.Inv) (hlock : s.lock = some t) (hplace : s.place t = .testing r) :
    (s.test t r).Inv := by
  obtain ⟨hrun, hwaits, hqueued, hwakes, hslot, hbusy, hserved⟩ := h
  rw [State.test]
  split
  · rename_i hfull
    obtain ⟨v, hv⟩ := Option.isSome_iff_exists.mp hfull
    have hsent := (hslot v hv).1
    constructor <;> simp only [schedule, update_apply, mem_appendAbsent]
    case running => grind [Place.Running]
    case wakes =>
      -- the task that waits found the request of another
      intro _
      refine ⟨v, ?_⟩
      have hne : v ≠ t := by
        rintro rfl
        rw [hplace] at hsent
        cases hsent
      rw [if_neg hne, hsent]
      trivial
    case queued =>
      intro u hu
      by_cases hut : u = t
      · simp [hut]
      · simp only [hut, if_false]
        exact hqueued u (hu.resolve_right hut)
    all_goals grind
  · rename_i hfree
    rw [Option.not_isSome_iff_eq_none] at hfree
    constructor <;> simp only [schedule, update_apply]
    case running => grind [Place.Running]
    case wakes => exact fun _ => ⟨t, by rw [if_pos rfl]; trivial⟩
    all_goals grind

theorem Inv.resume (h : s.Inv) (hlock : s.lock = none) (hwoken : s.woken t = true)
    (hplace : s.place t = .waiting r ∨ s.place t = .sent r) : (s.resume t).Inv := by
  obtain ⟨hrun, hwaits, hqueued, hwakes, hslot, hbusy, hserved⟩ := h
  obtain hplace | hplace := hplace
  all_goals rw [State.resume]; dsimp only; rw [hplace]
  · constructor <;> simp only [goto, update_apply]
    case running => grind [Place.Running]
    case wakes =>
      intro hq
      obtain ⟨u, hu⟩ := hwakes hq
      grind [Place.Served]
    all_goals grind
  · constructor <;> simp only [goto, update_apply]
    case running => grind [Place.Running]
    case wakes => exact fun _ => ⟨t, by rw [if_pos rfl]; trivial⟩
    all_goals grind

theorem Inv.finish (h : s.Inv) (hlock : s.lock = some t) (hplace : s.place t = .copying r) :
    (s.finish t r).Inv := by
  obtain ⟨hrun, hwaits, hqueued, hwakes, hslot, hbusy, hserved⟩ := h
  constructor <;> simp only [State.finish, goto, update_apply]
  case running => grind [Place.Running]
  all_goals grind

omit [DecidableEq τ] in
theorem Inv.runThread (h : s.Inv) (hlock : s.lock = none) : s.runThread.Inv := by
  obtain ⟨hrun, hwaits, hqueued, hwakes, hslot, hbusy, hserved⟩ := h
  rw [State.runThread]
  split
  · constructor <;> grind
  · constructor <;> grind

theorem Inv.answer (h : s.Inv) {reply : Reply σ} (hthread : s.thread = .transfer r) :
    (s.answer reply).Inv := by
  obtain ⟨hrun, hwaits, hqueued, hwakes, hslot, hbusy, hserved⟩ := h
  obtain ⟨v, hv⟩ := Option.ne_none_iff_exists'.mp (hbusy r hthread).2
  constructor <;> simp only [State.answer, hv, update_apply]
  all_goals grind

theorem Inv.step (h : s.Inv) (hon : s.Enabled Answers e) (hok : s.step devs e = .ok s') :
    s'.Inv := by
  cases e with
  | call t r =>
    cases hok
    exact h.call hon.1 hon.2
  | test t =>
    obtain ⟨hlock, r, hplace⟩ := hon
    rw [State.step, hplace] at hok
    cases hok
    exact h.test hlock hplace
  | resume t =>
    obtain ⟨hlock, hwoken, r, hplace⟩ := hon
    cases hok
    exact h.resume hlock hwoken hplace
  | finish t =>
    obtain ⟨hlock, r, hplace⟩ := hon
    rw [State.step, hplace] at hok
    cases hok
    exact h.finish hlock hplace
  | thread =>
    cases hok
    exact h.runThread hon.1
  | answer reply =>
    obtain ⟨-, r, hthread, -⟩ := hon
    cases hok
    exact h.answer hthread

theorem inv_of_reaches (h : Reaches (State.step devs) (Enabled Answers) (init sector) s) : s.Inv :=
  h.invariant Inv inv_init fun _ _ _ hinv hon hok => hinv.step hon hok

/-- One task at a time has a request or a reply, the buffer holds the reply, and so did the
calls that returned. -/
structure Isolated (Answers : Request → Reply σ → Prop) (s : State τ σ) : Prop where
  single : ∀ t u, (s.place t).Served → (s.place u).Served → t = u
  kept : ∀ t r, s.place t = .sent r ∨ s.place t = .copying r → s.curTask ≠ some t →
    Answers r ⟨s.curRes, s.curSector⟩
  returned : ∀ x ∈ s.returned, Answers x.1 x.2

omit [DecidableEq τ] in
theorem isolated_init : (init sector : State τ σ).Isolated Answers := by
  refine ⟨?_, ?_, ?_⟩ <;> simp [init, Place.Served]

theorem Isolated.step (h : s.Isolated Answers) (hinv : s.Inv) (hwaits : s.Patient Answers e)
    (hok : s.step devs e = .ok s') : s'.Isolated Answers := by
  obtain ⟨hsingle, hkept, hreturned⟩ := h
  obtain ⟨hon, hwaits⟩ := hwaits
  cases e with
  | call t r =>
    cases hok
    rw [State.call]
    split
    · constructor <;> simp only [goto, update_apply]
      case single => grind [Place.Served]
      all_goals grind [Enabled]
    · exact ⟨hsingle, hkept, hreturned⟩
  | test t =>
    obtain ⟨hlock, r, hplace⟩ := hon
    rw [State.step, hplace] at hok
    cases hok
    rw [State.test]
    split
    · constructor <;> simp only [schedule, update_apply]
      case single => grind [Place.Served]
      all_goals grind
    · rename_i hfree
      have hnone := hwaits t rfl (Option.not_isSome_iff_eq_none.mp hfree)
      constructor <;> simp only [schedule, update_apply]
      case single => grind [Place.Served]
      case kept => grind [Place.Served]
      case returned => exact hreturned
  | resume t =>
    obtain ⟨hlock, hwoken, r, hplace⟩ := hon
    cases hok
    have hslot := hinv.slot
    obtain hplace | hplace := hplace
    all_goals rw [State.resume]; dsimp only; rw [hplace]
    · constructor <;> simp only [goto, update_apply]
      case single => grind [Place.Served]
      all_goals grind
    · constructor <;> simp only [goto, update_apply]
      case single => grind [Place.Served]
      all_goals grind
  | finish t =>
    obtain ⟨hlock, r, hplace⟩ := hon
    rw [State.step, hplace] at hok
    cases hok
    have hslot := hinv.slot
    constructor <;> simp only [State.finish, goto, update_apply]
    case single => grind [Place.Served]
    all_goals grind
  | thread =>
    cases hok
    rw [State.runThread]
    split <;> exact ⟨hsingle, hkept, hreturned⟩
  | answer reply =>
    obtain ⟨-, r, hthread, hanswer⟩ := hon
    cases hok
    obtain ⟨hr, hcur⟩ := hinv.busy r hthread
    obtain ⟨v, hv⟩ := Option.ne_none_iff_exists'.mp hcur
    have hsent := (hinv.slot v hv).1
    constructor <;> simp only [State.answer]
    case single => exact hsingle
    case kept =>
      -- the thread worked for the one task that has a request
      intro u q hu _
      have hserved : (s.place u).Served := by obtain hu | hu := hu <;> rw [hu] <;> trivial
      obtain rfl : u = v := hsingle u v hserved (by rw [hsent]; trivial)
      have hq : q = r := by simpa [hsent, hr, eq_comm] using hu
      exact hq ▸ hanswer
    case returned => exact hreturned

theorem isolated_of_reaches (h : Reaches (State.step devs) (Patient Answers) (init sector) s) :
    s.Isolated Answers :=
  (h.invariant (fun s => s.Inv ∧ s.Isolated Answers) ⟨inv_init, isolated_init⟩
    fun _ _ _ hs hwaits hok => ⟨hs.1.step hwaits.1 hok, hs.2.step hs.1 hwaits hok⟩).2

/-! Without new calls every step brings the calls closer to their return. -/

omit [DecidableEq τ] in
theorem step_returns (devs : Devices) [DecidableEq τ] (s : State τ σ) (e : Event τ σ) :
    ∃ s', s.step devs e = .ok s' := by
  cases e with
  | test t | finish t => rw [State.step]; split <;> exact ⟨_, rfl⟩
  | _ => exact ⟨_, rfl⟩

theorem Inv.progress_sent (h : s.Inv) (hanswers : ∀ r, ∃ reply, Answers r reply)
    (hlock : s.lock = none) (hplace : s.place t = .sent r) : ∃ e, s.Old Answers e := by
  by_cases hcur : s.curTask = some t
  · cases hthread : s.thread with
    | blocked => exact ⟨.thread, ⟨hlock, hthread, (h.slot t hcur).2.2 hthread⟩, nofun⟩
    | transfer q =>
      obtain ⟨reply, hreply⟩ := hanswers q
      exact ⟨.answer reply, ⟨hlock, q, hthread, hreply⟩, nofun⟩
  · exact ⟨.resume t, ⟨hlock, h.served t r hplace hcur, r, .inr hplace⟩, nofun⟩

theorem Inv.progress (h : s.Inv) (hanswers : ∀ r, ∃ reply, Answers r reply)
    (hcalls : ¬∀ t, s.place t = .outside) : ∃ e, s.Old Answers e := by
  cases hlock : s.lock with
  | some t =>
    have hrun := (h.running t).mpr hlock
    cases hplace : s.place t with
    | testing r => exact ⟨.test t, ⟨hlock, r, hplace⟩, nofun⟩
    | copying r => exact ⟨.finish t, ⟨hlock, r, hplace⟩, nofun⟩
    | _ => rw [hplace] at hrun; exact hrun.elim
  | none =>
    have hstill : ∀ t p, s.place t = p → ¬p.Running := by
      rintro t _ rfl
      rw [h.running t, hlock]
      nofun
    push Not at hcalls
    obtain ⟨t, ht⟩ := hcalls
    cases hplace : s.place t with
    | outside => exact absurd hplace ht
    | testing r | copying r => exact absurd trivial (hstill t _ hplace)
    | sent r => exact h.progress_sent hanswers hlock hplace
    | waiting r =>
      obtain hmem | hwoken := h.waits t r hplace
      · -- the task that has a request or a reply is not done
        obtain ⟨u, hu⟩ := h.wakes (List.ne_nil_of_mem hmem)
        cases hserved : s.place u with
        | sent q => exact h.progress_sent hanswers hlock hserved
        | copying q => exact absurd trivial (hstill u _ hserved)
        | _ => rw [hserved] at hu; exact hu.elim
      · exact ⟨.resume t, ⟨hlock, hwoken, r, .inl hplace⟩, nofun⟩

section Measure

variable [Fintype τ]

def weight (s : State τ σ) (t : τ) : Nat :=
  match s.place t with
  | .outside => 0
  | .copying _ => 2 * Fintype.card τ + 1
  | .sent _ => 2 * Fintype.card τ + 2 +
      if s.curTask = some t then if s.thread = .blocked then 2 else 1 else 0
  | .waiting _ => 2 * Fintype.card τ + 7 + if s.woken t then 2 else 0
  | .testing _ => 2 * Fintype.card τ + 8

def measure (s : State τ σ) : Nat := ∑ t, s.weight t + s.threadWoken.toNat

theorem sum_add_le {f g : τ → Nat} {t : τ} {k c : Nat} (hother : ∀ u ≠ t, f u ≤ g u + c)
    (ht : f t + k ≤ g t + c) : ∑ u, f u + k ≤ ∑ u, g u + Fintype.card τ * c := by
  calc ∑ u, f u + k = ∑ u, (f u + if u = t then k else 0) := by
        rw [Finset.sum_add_distrib, Finset.sum_ite_eq' Finset.univ t, if_pos (Finset.mem_univ t)]
    _ ≤ ∑ u, (g u + c) := by
        apply Finset.sum_le_sum
        intro u _
        by_cases hu : u = t
        · simpa [hu] using ht
        · simpa [hu] using hother u hu
    _ = ∑ u, g u + Fintype.card τ * c := by
        rw [Finset.sum_add_distrib, Finset.sum_const, Finset.card_univ, smul_eq_mul]

theorem measure_lt {k : Nat} (hplace : ∀ u ≠ t, s'.place u = s.place u)
    (hwoken : ∀ u ≠ t, s'.woken u = s.woken u)
    (hcur : ∀ u ≠ t, s'.curTask = some u ↔ s.curTask = some u)
    (hthread : ∀ u ≠ t, s.curTask = some u → s'.thread = s.thread)
    (ht : s'.weight t + k ≤ s.weight t) (hless : s'.threadWoken.toNat < s.threadWoken.toNat + k) :
    s'.measure < s.measure := by
  have hother : ∀ u ≠ t, s'.weight u ≤ s.weight u + 0 := by
    intro u hu
    rw [weight, weight, hplace u hu, hwoken u hu]
    by_cases hcurTask : s.curTask = some u
    · simp [(hcur u hu).mpr hcurTask, hcurTask, hthread u hu hcurTask]
    · simp [mt (hcur u hu).mp hcurTask, hcurTask]
  have hsum := sum_add_le hother ht
  rw [measure, measure]
  omega

theorem measure_finish (hplace : s.place t = .copying r) :
    (s.finish t r).measure < s.measure := by
  have hother : ∀ u ≠ t, (s.finish t r).weight u ≤ s.weight u + 2 := by
    intro u hu
    simp only [weight, State.finish, goto, update_of_ne hu]
    split <;> grind
  have ht : (s.finish t r).weight t + (2 * Fintype.card τ + 3) ≤ s.weight t + 2 := by
    simp [weight, State.finish, goto, hplace]
  have hsum := sum_add_le hother ht
  have hwoken : (s.finish t r).threadWoken = s.threadWoken := rfl
  rw [measure, measure, hwoken]
  omega

theorem Inv.measure_step (h : s.Inv) (hold : s.Old Answers e) (hok : s.step devs e = .ok s') :
    s'.measure < s.measure := by
  obtain ⟨hon, hnew⟩ := hold
  cases e with
  | call t r => exact absurd rfl (hnew t r)
  | test t =>
    obtain ⟨hlock, r, hplace⟩ := hon
    rw [State.step, hplace] at hok
    cases hok
    rw [State.test]
    split
    · refine measure_lt (t := t) (k := 1) ?_ ?_ (fun _ _ => .rfl) (fun _ _ _ => rfl) ?_
        (Nat.lt_succ_self _)
      · exact fun u hu => update_of_ne hu _ _
      · exact fun u hu => update_of_ne hu _ _
      · simp [weight, schedule, hplace]
    · rename_i hfree
      rw [Option.not_isSome_iff_eq_none] at hfree
      refine measure_lt (t := t) (k := 2) ?_ ?_ ?_ ?_ ?_ ?_
      · exact fun u hu => update_of_ne hu _ _
      · exact fun u hu => update_of_ne hu _ _
      · intro u hu
        simp [schedule, hfree, hu.symm]
      · simp [hfree]
      · simp only [weight, schedule, hplace, update_self]
        grind
      · simp [schedule]
  | resume t =>
    obtain ⟨hlock, hwoken, r, hplace | hplace⟩ := hon
    · cases hok
      rw [State.resume]
      simp only [hplace]
      refine measure_lt (t := t) (k := 1) ?_ (fun _ _ => rfl) (fun _ _ => .rfl) (fun _ _ _ => rfl) ?_
        (Nat.lt_succ_self _)
      · exact fun u hu => update_of_ne hu _ _
      · simp [weight, goto, hplace, hwoken]
    · cases hok
      rw [State.resume]
      simp only [hplace]
      refine measure_lt (t := t) (k := 1) ?_ (fun _ _ => rfl) (fun _ _ => .rfl) (fun _ _ _ => rfl) ?_
        (Nat.lt_succ_self _)
      · exact fun u hu => update_of_ne hu _ _
      · simp only [weight, goto, hplace, update_self]
        omega
  | finish t =>
    obtain ⟨hlock, r, hplace⟩ := hon
    rw [State.step, hplace] at hok
    cases hok
    exact measure_finish hplace
  | thread =>
    obtain ⟨-, hthread, hwoken⟩ := hon
    cases hok
    have hless : s.runThread.threadWoken.toNat < s.threadWoken.toNat := by
      rw [State.runThread, hwoken]
      split <;> simp
    have hle : ∑ u, s.runThread.weight u ≤ ∑ u, s.weight u := by
      apply Finset.sum_le_sum
      intro u _
      rw [State.runThread]
      split <;> simp only [weight, hthread] <;> grind
    exact Nat.add_lt_add_of_le_of_lt hle hless
  | answer reply =>
    obtain ⟨-, r, hthread, -⟩ := hon
    cases hok
    obtain ⟨v, hv⟩ := Option.ne_none_iff_exists'.mp (h.busy r hthread).2
    have hsent := (h.slot v hv).1
    refine measure_lt (t := v) (k := 1) (fun _ _ => rfl) (fun u hu => ?_) (fun u hu => ?_)
      (fun u hu => ?_) ?_ (Nat.lt_succ_self _)
    · simp [State.answer, hv, update_of_ne hu]
    · simp [State.answer, hv, hu.symm]
    · simp [hv, hu.symm]
    · simp [weight, State.answer, hv, hsent, hthread]

/-- If tasks wait until the last sector was copied, each call returns what the device answered to
its request; and all calls return once no new ones come. -/
theorem umsc_isolated (hanswers : ∀ r, ∃ reply, Answers r reply) :
    (∀ s : State τ σ, Reaches (step devs) (Patient Answers) (init sector) s →
      ∀ x ∈ s.returned, Answers x.1 x.2) ∧
    ∀ s : State τ σ, Reaches (step devs) (Enabled Answers) (init sector) s →
      Inevitable (step devs) (Old Answers) (fun s => ∀ t, s.place t = .outside) s := by
  refine ⟨fun s h => (isolated_of_reaches h).returned, fun s h => ?_⟩
  refine Inevitable.of_measure Inv measure ?_ ?_ ?_ (inv_of_reaches h)
  · intro s s' e hinv hold hok
    exact hinv.step hold.1 hok
  · intro s hinv hcalls
    obtain ⟨e, he⟩ := hinv.progress hanswers hcalls
    obtain ⟨s', hok⟩ := step_returns devs s e
    exact ⟨e, s', he, hok⟩
  · intro s s' e hinv hold hok
    exact hinv.measure_step hold hok

end Measure

def numbered (r : Request) (reply : Reply Nat) : Prop := reply = ⟨512, r.lba⟩

theorem umsc_isolated_numbered :
    (∀ s : State (Fin 2) Nat, Reaches (step ⟨1, fun _ => 512⟩) (Patient numbered) (init 0) s →
      ∀ x ∈ s.returned, numbered x.1 x.2) ∧
    ∀ s : State (Fin 2) Nat, Reaches (step ⟨1, fun _ => 512⟩) (Enabled numbered) (init 0) s →
      Inevitable (step ⟨1, fun _ => 512⟩) (Old numbered) (fun s => ∀ t, s.place t = .outside) s :=
  umsc_isolated fun r => ⟨⟨512, r.lba⟩, rfl⟩

theorem umsc_returns_other_sector :
    ∃ s : State (Fin 2) Nat, Reaches (step ⟨1, fun _ => 512⟩) (Enabled numbered) (init 0) s ∧
      s.returned = [(⟨0, 5, 512⟩, ⟨512, 7⟩)] ∧ ¬numbered ⟨0, 5, 512⟩ ⟨512, 7⟩ := by
  have h0 : Reaches (step ⟨1, fun _ => 512⟩) (Enabled numbered) (init 0) (init 0 : State (Fin 2) Nat) :=
    .refl
  have h1 := h0.tail (e := Event.call 0 ⟨0, 5, 512⟩) ⟨rfl, rfl⟩ rfl
  have h2 := h1.tail (e := Event.test 0) ⟨rfl, _, rfl⟩ rfl
  have h3 := h2.tail (e := Event.thread) ⟨rfl, rfl, rfl⟩ rfl
  have h4 := h3.tail (e := Event.answer ⟨512, 5⟩) ⟨rfl, _, rfl, rfl⟩ rfl
  have h5 := h4.tail (e := Event.call 1 ⟨0, 7, 512⟩) ⟨rfl, rfl⟩ rfl
  have h6 := h5.tail (e := Event.test 1) ⟨rfl, _, rfl⟩ rfl
  have h7 := h6.tail (e := Event.thread) ⟨rfl, rfl, rfl⟩ rfl
  have h8 := h7.tail (e := Event.answer ⟨512, 7⟩) ⟨rfl, _, rfl, rfl⟩ rfl
  have h9 := h8.tail (e := Event.resume 0) ⟨rfl, rfl, ⟨0, 5, 512⟩, .inr rfl⟩ rfl
  have h10 := h9.tail (e := Event.finish 0) ⟨rfl, _, rfl⟩ rfl
  exact ⟨_, h10, rfl, by simp [numbered]⟩

end State

end Quest.Drivers.Umsc
