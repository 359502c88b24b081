import Quest.Lib.Reach
import Quest.Sched.Queue

/-! The lock of the ATA driver, `drivers/ata/ata.c`.  A task runs with the kernel lock until it
calls `schedule`. -/
namespace Quest.Drivers.Ata

open Quest.Lib Reach Sched.Queue Function

/-- `ata_drive_read_sector`, `ata_drive_write_sector` and `_atapi_drive_read_sector` -/
inductive Op where
  | read
  | write
  | atapi
  deriving DecidableEq, Repr

inductive Place where
  | outside
  /-- at the test of the loop in `ata_grab` -/
  | grabbing (op : Op)
  /-- in `schedule`, called by `ata_grab` -/
  | waiting (op : Op)
  /-- behind the first port write of the command -/
  | command (op : Op)
  /-- in `schedule`, until the IRQ for the data comes -/
  | dataIrq (op : Op)
  /-- before the transfer of the data -/
  | transfer (op : Op)
  /-- in `schedule`, until the IRQ for the empty transfer of ATAPI comes -/
  | endIrq
  /-- before BSY and DRQ are clear -/
  | drain
  deriving DecidableEq, Repr

def Place.Inside : Place → Prop
  | .outside | .grabbing _ | .waiting _ => False
  | .command _ | .dataIrq _ | .transfer _ | .endIrq | .drain => True

instance (place : Place) : Decidable place.Inside := by
  cases place <;> unfold Place.Inside <;> infer_instance

def Place.Running : Place → Prop
  | .grabbing _ | .command _ | .transfer _ | .drain => True
  | .outside | .waiting _ | .dataIrq _ | .endIrq => False

instance (place : Place) : Decidable place.Running := by
  cases place <;> unfold Place.Running <;> infer_instance

/-- `ata_current_task` and `ata_waitqueue`, the places of the tasks, who was woken, and the holder
of the kernel lock. -/
structure State (τ : Type) where
  current : Option τ
  waitqueue : List τ
  place : τ → Place
  woken : τ → Bool
  lock : Option τ

inductive Event (τ : Type) where
  | call (t : τ) (op : Op)
  | grab (t : τ)
  | block (t : τ)
  | resume (t : τ)
  | finish (t : τ)
  | irq

variable {τ : Type} [DecidableEq τ]

namespace State

def goto (s : State τ) (t : τ) (place : Place) : State τ :=
  { s with place := update s.place t place }

def schedule (s : State τ) (t : τ) (place : Place) : State τ :=
  { s with
    place := update s.place t place, woken := update s.woken t false, lock := none }

def release (s : State τ) : State τ :=
  { s with current := none, waitqueue := [], woken := fun t => s.woken t || decide (t ∈ s.waitqueue) }

def grab (s : State τ) (t : τ) (op : Op) : State τ :=
  if s.current.isSome then
    { s with waitqueue := appendAbsent s.waitqueue t }.schedule t (.waiting op)
  else
    { s with current := some t }.goto t (.command op)

def finish (s : State τ) (t : τ) : State τ := { s.release with lock := none }.goto t .outside

def irqHandler (s : State τ) : State τ :=
  match s.current with
  | none => s
  | some t => { s with woken := update s.woken t true }

def block (s : State τ) (t : τ) : State τ :=
  match s.place t with
  | .command op => s.schedule t (.dataIrq op)
  | .transfer .atapi => s.schedule t .endIrq
  | _ => s

def resume (s : State τ) (t : τ) : State τ :=
  let s := { s with lock := some t }
  match s.place t with
  | .waiting op => s.goto t (.grabbing op)
  | .dataIrq op => s.goto t (.transfer op)
  | .endIrq => s.goto t .drain
  | _ => s

/-- The first part of an operation.  A write does not call `ata_grab`. -/
def call (s : State τ) (t : τ) : Op → State τ
  | .write => { s with lock := some t }.goto t (.command .write)
  | op => { s with lock := some t }.goto t (.grabbing op)

def step (s : State τ) : Event τ → Except Fault (State τ)
  | .call t op => .ok (s.call t op)
  | .grab t =>
      match s.place t with
      | .grabbing op => .ok (s.grab t op)
      | _ => .ok s
  | .block t => .ok (s.block t)
  | .resume t => .ok (s.resume t)
  | .finish t => .ok (s.finish t)
  | .irq => .ok s.irqHandler

/-- Only the holder of the kernel lock runs, and only a task that was woken resumes.  ATAPI waits
twice unless the command fails. -/
def Enabled (s : State τ) : Event τ → Prop
  | .call t _ => s.lock = none ∧ s.place t = .outside
  | .grab t => s.lock = some t ∧ (s.place t = .grabbing .read ∨ s.place t = .grabbing .atapi)
  | .block t => s.lock = some t ∧
      (s.place t = .command .read ∨ s.place t = .command .atapi ∨ s.place t = .transfer .atapi)
  | .resume t => s.lock = none ∧ s.woken t = true ∧ ¬(s.place t).Running ∧ s.place t ≠ .outside
  | .finish t => s.lock = some t ∧ (s.place t = .command .write ∨ s.place t = .command .atapi ∨
      s.place t = .transfer .read ∨ s.place t = .drain)
  | .irq => s.lock = none

instance (s : State τ) (e : Event τ) : Decidable (s.Enabled e) := by
  cases e <;> unfold Enabled <;> infer_instance

def init : State τ := ⟨none, [], fun _ => .outside, fun _ => false, none⟩

def Exclusive (s : State τ) : Prop :=
  ∀ t u, (s.place t).Inside → (s.place u).Inside → t = u

def Polite (s : State τ) (e : Event τ) : Prop :=
  s.Enabled e ∧ ∀ t, e = .call t .write → ∀ u, ¬(s.place u).Inside

/-- `ata_current_task` names the task that uses the bus, unless it is a writer. -/
structure Inv (s : State τ) : Prop where
  owner : ∀ t, (s.place t).Inside → s.place t ≠ .command .write → s.current = some t
  held : ∀ t, s.current = some t → (s.place t).Inside ∧ s.place t ≠ .command .write
  writer : ∀ t, s.place t = .command .write → s.current = none
  running : ∀ t, (s.place t).Running ↔ s.lock = some t
  waits : ∀ t op, s.place t = .waiting op → t ∈ s.waitqueue ∨ s.woken t = true

variable {s s' : State τ} {t u : τ} {e : Event τ}

omit [DecidableEq τ] in
theorem inv_init : (init : State τ).Inv := by
  refine ⟨?_, ?_, ?_, ?_, ?_⟩ <;> simp [init, Place.Inside, Place.Running]

omit [DecidableEq τ] in
theorem Inv.exclusive (h : s.Inv) : s.Exclusive := by
  intro t u ht hu
  by_cases htw : s.place t = .command .write
  · by_cases huw : s.place u = .command .write
    · -- both hold the kernel lock
      have hlt := (h.running t).mp (by rw [htw]; trivial)
      have hlu := (h.running u).mp (by rw [huw]; trivial)
      exact Option.some.inj (hlt.symm.trans hlu)
    · have hcur := h.owner u hu huw
      rw [h.writer t htw] at hcur
      cases hcur
  · have hcur := h.owner t ht htw
    by_cases huw : s.place u = .command .write
    · rw [h.writer u huw] at hcur
      cases hcur
    · exact Option.some.inj (hcur.symm.trans (h.owner u hu huw))

structure Moves (s s' : State τ) (t : τ) (p : Place) : Prop where
  place : s'.place = update s.place t p
  before : s.lock = none ∨ s.lock = some t
  lock : s'.lock = if p.Running then some t else none
  queue : ∀ u, u ≠ t → u ∈ s.waitqueue ∨ s.woken u = true → u ∈ s'.waitqueue ∨ s'.woken u = true
  waiting : ∀ op, p = .waiting op → t ∈ s'.waitqueue

section Moves

variable {p : Place}

theorem Moves.self (h : Moves s s' t p) : s'.place t = p := by
  rw [h.place, update_self]

theorem Moves.other (h : Moves s s' t p) (hu : u ≠ t) : s'.place u = s.place u := by
  rw [h.place, update_of_ne hu]

theorem Moves.idle (h : Moves s s' t p) (hu : u ≠ t) : s.lock ≠ some u := by
  obtain hnone | hsome := h.before
  · simp [hnone]
  · simpa [hsome] using hu.symm

theorem Inv.running_moves (hinv : s.Inv) (h : Moves s s' t p) (u : τ) :
    (s'.place u).Running ↔ s'.lock = some u := by
  rw [h.lock]
  obtain rfl | hne := eq_or_ne u t
  · rw [h.self]
    split <;> simp_all
  · rw [h.other hne, hinv.running u]
    refine iff_of_false (h.idle hne) ?_
    split
    · simpa using hne.symm
    · nofun

theorem Inv.waits_moves (hinv : s.Inv) (h : Moves s s' t p) (u : τ) (op : Op)
    (hu : s'.place u = .waiting op) : u ∈ s'.waitqueue ∨ s'.woken u = true := by
  obtain rfl | hne := eq_or_ne u t
  · exact .inl (h.waiting op (h.self.symm.trans hu))
  · rw [h.other hne] at hu
    exact h.queue u hne (hinv.waits u op hu)

theorem Inv.moves (hinv : s.Inv) (h : Moves s s' t p) (hcur : s'.current = s.current)
    (hin : p.Inside ∧ p ≠ .command .write ↔
      (s.place t).Inside ∧ s.place t ≠ .command .write)
    (hwriter : p = .command .write → s.current = none) : s'.Inv := by
  refine ⟨fun u hu hw => ?_, fun u hu => ?_, fun u hu => ?_, hinv.running_moves h,
    hinv.waits_moves h⟩
  · rw [hcur]
    obtain rfl | hne := eq_or_ne u t
    · rw [h.self] at hu hw
      exact hinv.owner u (hin.mp ⟨hu, hw⟩).1 (hin.mp ⟨hu, hw⟩).2
    · rw [h.other hne] at hu hw
      exact hinv.owner u hu hw
  · rw [hcur] at hu
    obtain rfl | hne := eq_or_ne u t
    · rw [h.self]
      exact hin.mpr (hinv.held u hu)
    · rw [h.other hne]
      exact hinv.held u hu
  · rw [hcur]
    obtain rfl | hne := eq_or_ne u t
    · exact hwriter (h.self.symm.trans hu)
    · exact hinv.writer u ((h.other hne).symm.trans hu)

end Moves

theorem woken_schedule {p : Place} (hu : u ≠ t) : (s.schedule t p).woken u = s.woken u := by
  rw [schedule]
  exact update_of_ne hu _ _

section

variable (h : s.Inv)
include h

theorem Inv.call {op : Op} (hlock : s.lock = none) (hout : s.place t = .outside)
    (hpolite : op = .write → ∀ u, ¬(s.place u).Inside) : (s.call t op).Inv := by
  have hgrabbing : ∀ op, ({ s with lock := some t }.goto t (.grabbing op)).Inv := by
    intro op
    refine h.moves (t := t) (p := .grabbing op)
      ⟨rfl, .inl hlock, rfl, fun _ _ hu => hu, nofun⟩ rfl ?_ ?_
    · simp [hout, Place.Inside]
    · nofun
  cases op with
  | read => exact hgrabbing .read
  | atapi => exact hgrabbing .atapi
  | write =>
    refine h.moves (t := t) (p := .command .write)
      ⟨rfl, .inl hlock, rfl, fun _ _ hu => hu, nofun⟩ rfl ?_ ?_
    · simp [hout, Place.Inside]
    · intro _
      cases hcur : s.current with
      | none => rfl
      | some u => exact absurd (h.held u hcur).1 (hpolite rfl u)

theorem Inv.grab {op : Op} (hop : op ≠ .write) (hlock : s.lock = some t)
    (hplace : s.place t = .grabbing op) : (s.grab t op).Inv := by
  rw [State.grab]
  split
  · refine h.moves (t := t) (p := .waiting op) ⟨rfl, .inr hlock, rfl, ?_, ?_⟩ rfl ?_ nofun
    · intro u hne hu
      refine hu.imp (fun hmem => mem_appendAbsent.mpr (.inl hmem)) fun hwoken => ?_
      exact (woken_schedule hne).trans hwoken
    · intro _ _
      exact mem_appendAbsent.mpr (.inr rfl)
    · simp [hplace, Place.Inside]
  · rename_i hfree
    rw [Option.not_isSome_iff_eq_none] at hfree
    have hmoves : Moves s ({ s with current := some t }.goto t (.command op)) t (.command op) :=
      ⟨rfl, .inr hlock, hlock, fun _ _ hu => hu, nofun⟩
    have hcommand : Place.command op ≠ .command .write := by simpa using hop
    refine ⟨fun u hu hw => ?_, fun u hu => ?_, fun u hu => ?_, h.running_moves hmoves,
      h.waits_moves hmoves⟩
    · obtain rfl | hne := eq_or_ne u t
      · rfl
      · rw [hmoves.other hne] at hu hw
        have hcur := h.owner u hu hw
        rw [hfree] at hcur
        cases hcur
    · obtain rfl : t = u := Option.some.inj hu
      rw [hmoves.self]
      exact ⟨trivial, hcommand⟩
    · obtain rfl | hne := eq_or_ne u t
      · exact absurd (hmoves.self.symm.trans hu) hcommand
      · rw [hmoves.other hne] at hu
        have hrun := (h.running u).mp (by rw [hu]; trivial)
        exact absurd hrun (hmoves.idle hne)

theorem Inv.finish (hlock : s.lock = some t) (hin : (s.place t).Inside) :
    (s.finish t).Inv := by
  have hmoves : Moves s (s.finish t) t .outside := by
    refine ⟨rfl, .inr hlock, rfl, fun u _ hu => .inr ?_, nofun⟩
    obtain hmem | hwoken := hu
    · simp [State.finish, release, goto, hmem]
    · simp [State.finish, release, goto, hwoken]
  refine ⟨fun u hu hw => ?_, nofun, fun _ _ => rfl, h.running_moves hmoves, h.waits_moves hmoves⟩
  obtain rfl | hne := eq_or_ne u t
  · rw [hmoves.self] at hu
    exact hu.elim
  · rw [hmoves.other hne] at hu
    exact absurd (h.exclusive u t hu hin) hne

theorem Inv.block (hlock : s.lock = some t) (hplace : s.place t = .command .read ∨
    s.place t = .command .atapi ∨ s.place t = .transfer .atapi) : (s.block t).Inv := by
  have hsched : ∀ place : Place, place.Inside → ¬place.Running → place ≠ .command .write →
      (s.place t).Inside → s.place t ≠ .command .write → (s.schedule t place).Inv := by
    intro place hin hrun hne hin' hne'
    refine h.moves (t := t) (p := place) ⟨rfl, .inr hlock, (if_neg hrun).symm, ?_, ?_⟩ rfl
      (iff_of_true ⟨hin, hne⟩ ⟨hin', hne'⟩) fun heq => absurd heq hne
    · intro u hu hwaits
      exact hwaits.imp id fun hwoken => (woken_schedule hu).trans hwoken
    · rintro op rfl
      exact hin.elim
  obtain hplace | hplace | hplace := hplace
  all_goals
    rw [State.block, hplace]
    exact hsched _ trivial id nofun (by rw [hplace]; trivial) (by rw [hplace]; nofun)

theorem Inv.resume (hlock : s.lock = none) (hrun : ¬(s.place t).Running)
    (hout : s.place t ≠ .outside) : (s.resume t).Inv := by
  have hgoto : ∀ place : Place, place.Running → place ≠ .command .write →
      (place.Inside ↔ (s.place t).Inside) →
      ({ s with lock := some t }.goto t place).Inv := by
    intro place hplace hne hin
    have hne' : s.place t ≠ .command .write := fun heq => hrun (by rw [heq]; trivial)
    refine h.moves (t := t) (p := place) ⟨rfl, .inl hlock, (if_pos hplace).symm, fun _ _ hu => hu, ?_⟩
      rfl ?_ fun heq => absurd heq hne
    · rintro op rfl
      exact hplace.elim
    · rw [and_iff_left hne, and_iff_left hne', hin]
  rw [State.resume]
  cases hplace : s.place t with
  | outside => exact absurd hplace hout
  | grabbing op | command op | transfer op | drain => exact absurd (by rw [hplace]; trivial) hrun
  | waiting op => exact hgoto (.grabbing op) trivial nofun (by rw [hplace]; rfl)
  | dataIrq op => exact hgoto (.transfer op) trivial nofun (by rw [hplace]; rfl)
  | endIrq => exact hgoto .drain trivial nofun (by rw [hplace]; rfl)

theorem Inv.irqHandler : s.irqHandler.Inv := by
  rw [State.irqHandler]
  split
  · exact h
  · rename_i t _
    refine { h with waits := fun u op hu => (h.waits u op hu).imp id ?_ }
    intro hwoken
    obtain rfl | hne := eq_or_ne u t
    · exact update_self u true s.woken
    · exact (update_of_ne hne true s.woken).trans hwoken

theorem Inv.step (hpolite : s.Polite e) (hok : s.step e = .ok s') : s'.Inv := by
  obtain ⟨hon, hwrite⟩ := hpolite
  cases e with
  | call t op =>
    cases hok
    refine h.call hon.1 hon.2 ?_
    rintro rfl
    exact hwrite t rfl
  | grab t =>
    obtain ⟨hlock, hplace⟩ := hon
    rw [State.step] at hok
    obtain hplace | hplace := hplace
    all_goals
      rw [hplace] at hok
      cases hok
      exact h.grab (by decide) hlock hplace
  | block t =>
    cases hok
    exact h.block hon.1 hon.2
  | resume t =>
    cases hok
    exact h.resume hon.1 hon.2.2.1 hon.2.2.2
  | finish t =>
    cases hok
    apply h.finish hon.1
    obtain hplace | hplace | hplace | hplace := hon.2
    all_goals
      rw [hplace]
      trivial
  | irq =>
    cases hok
    exact h.irqHandler

end

theorem inv_of_reaches (h : Reaches State.step Polite init s) : s.Inv :=
  h.invariant Inv inv_init fun _ _ _ hinv hpolite hok => hinv.step hpolite hok

theorem not_exclusive_of_impolite (hon : s.Enabled e) (hok : s.step e = .ok s')
    (h : ¬s.Polite e) : ¬s'.Exclusive := by
  rw [Polite, not_and] at h
  have hwrite := h hon
  push Not at hwrite
  obtain ⟨t, rfl, u, hu⟩ := hwrite
  cases hok
  intro hexclusive
  have hne : u ≠ t := by
    rintro rfl
    rw [hon.2] at hu
    exact hu
  have ht' : ((s.call t .write).place t).Inside := by
    simp [State.call, goto, Place.Inside]
  have hu' : ((s.call t .write).place u).Inside := by
    simpa [State.call, goto, update_of_ne hne] using hu
  exact hne (hexclusive u t hu' ht')

/-- At most one task uses the bus if writes start when nobody does, the next step keeps that if
and only if it is no other write, and a release wakes all that wait. -/
theorem ata_exclusive (s : State τ) (h : Reaches State.step Polite init s) :
    s.Exclusive ∧
    (∀ e s', s.Enabled e → s.step e = .ok s' → (s'.Exclusive ↔ s.Polite e)) ∧
    ∀ t s', s.Enabled (.finish t) → s.step (.finish t) = .ok s' →
      ∀ u op, s'.place u = .waiting op → s'.woken u = true := by
  have hinv := inv_of_reaches h
  refine ⟨hinv.exclusive, fun e s' henabled hok => ?_, fun t s' henabled hok u op hu => ?_⟩
  · constructor
    · intro hexclusive
      by_contra hnot
      exact not_exclusive_of_impolite henabled hok hnot hexclusive
    · intro hpolite
      exact (hinv.step hpolite hok).exclusive
  · have hinv' := hinv.step ⟨henabled, nofun⟩ hok
    cases hok
    exact (hinv'.waits u op hu).resolve_left (List.not_mem_nil)

def reading : State (Fin 2) where
  current := some 0
  waitqueue := []
  place := update (update (update (fun _ => .outside) 0 (.grabbing .read)) 0
    (.command .read)) 0 (.dataIrq .read)
  woken := update (fun _ => false) 0 false
  lock := none

theorem reading_reached : Reaches State.step Polite init reading :=
  (((Reaches.refl.tail (e := .call 0 .read) ⟨by decide, nofun⟩ rfl).tail
    (e := .grab 0) ⟨by decide, nofun⟩ rfl).tail (e := .block 0) ⟨by decide, nofun⟩ rfl)

theorem ata_exclusive_reading :
    reading.Exclusive ∧
    (∀ e s', reading.Enabled e → reading.step e = .ok s' → (s'.Exclusive ↔ reading.Polite e)) ∧
    ∀ t s', reading.Enabled (.finish t) → reading.step (.finish t) = .ok s' →
      ∀ u op, s'.place u = .waiting op → s'.woken u = true :=
  ata_exclusive reading reading_reached

theorem ata_write_breaks_in :
    ∃ s : State (Fin 2), Reaches State.step Enabled init s ∧
      s.place 0 = .dataIrq .read ∧ s.place 1 = .command .write :=
  ⟨_, (((Reaches.refl.tail (e := .call 0 .read) (by decide) rfl).tail (e := .grab 0) (by decide) rfl).tail
    (e := .block 0) (by decide) rfl).tail (e := .call 1 .write) (by decide) rfl, rfl, rfl⟩

end State

end Quest.Drivers.Ata
