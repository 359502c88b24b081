import Quest.Sched.Queue

/-! The scheduling rules of `docs/vcpu.tex`.  `wakeup` puts a task and its VCPU on their queues,
`schedule` moves one task from the runqueue of a queued VCPU to its `tr` or goes idle. -/
namespace Quest.Sched.Rules

open Queue List Function

structure Board (τ ν π : Type) where
  tasks : ν → List τ
  queue : π → List ν
  tr : ν → Option τ
  current : π → Option ν

variable {τ ν π : Type} [DecidableEq τ] [DecidableEq ν] [DecidableEq π]

def Board.wake (home : ν → π) (b : Board τ ν π) (t : τ) (v : ν) : Board τ ν π :=
  { b with
    tasks := update b.tasks v (appendAbsent (b.tasks v) t)
    queue := update b.queue (home v) (appendAbsent (b.queue (home v)) v) }

def Board.idle (b : Board τ ν π) (p : π) : Board τ ν π :=
  { b with current := update b.current p none }

def Board.pick (b : Board τ ν π) (p : π) (v : ν) (t : τ) (rest : List ν) : Board τ ν π where
  tasks := update b.tasks v ((b.tasks v).erase t)
  queue := update b.queue p rest
  tr := update b.tr v (some t)
  current := update b.current p (some v)

structure Requeued (b : Board τ ν π) (p : π) (v : ν) (t : τ) (rest : List ν) : Prop where
  nodup : rest.Nodup
  mem : ∀ u, u ∈ rest ↔ u ∈ b.queue p ∧ (u = v → (b.tasks v).erase t ≠ [])

/-- Rules s1 to s3: the task selected, if any, and the board after it. -/
inductive Schedule (b : Board τ ν π) (p : π) : Option τ → Board τ ν π → Prop where
  | idle : Schedule b p none (b.idle p)
  | pick {v : ν} {t : τ} {rest : List ν} : v ∈ b.queue p → t ∈ b.tasks v →
      Requeued b p v t rest → Schedule b p (some t) (b.pick p v t rest)

/-- What holds between the calls, when the PCPU of a VCPU is `home`. -/
structure Consistent (home : ν → π) (b : Board τ ν π) : Prop where
  distinct : ∀ v, (b.tasks v).Nodup
  once : ∀ u v t, t ∈ b.tasks u → t ∈ b.tasks v → u = v
  orderly : ∀ p, (b.queue p).Nodup
  queued : ∀ p v, v ∈ b.queue p ↔ home v = p ∧ b.tasks v ≠ []
  active : ∀ p v, b.current p = some v → home v = p ∧ b.tr v ≠ none

omit [DecidableEq τ] [DecidableEq ν] [DecidableEq π] in
theorem consistent_empty (home : ν → π) {b : Board τ ν π} (htasks : ∀ v, b.tasks v = [])
    (hqueue : ∀ p, b.queue p = []) (hcur : ∀ p, b.current p = none) : Consistent home b where
  distinct v := by simp [htasks]
  once u v t h := by simp [htasks] at h
  orderly p := by simp [hqueue]
  queued p v := by simp [htasks, hqueue]
  active p v h := by simp [hcur] at h

private theorem nodup_appendAbsent {κ : Type} [DecidableEq κ] {nodes : List κ} (x : κ)
    (h : nodes.Nodup) : (appendAbsent nodes x).Nodup := by
  unfold appendAbsent
  split
  · exact h
  · rename_i hx
    rw [nodup_append]
    refine ⟨h, nodup_singleton x, ?_⟩
    intro y hy z hz
    rw [mem_singleton] at hz
    rintro rfl
    exact hx (hz ▸ hy)

section Wake

variable {home : ν → π} {b : Board τ ν π} {t : τ} {v : ν}

theorem mem_wake_tasks {x : τ} {u : ν} :
    x ∈ (b.wake home t v).tasks u ↔ x ∈ b.tasks u ∨ u = v ∧ x = t := by
  unfold Board.wake
  by_cases hu : u = v
  · subst hu
    simp
  · simp [hu]

theorem mem_wake_queue {p : π} {u : ν} :
    u ∈ (b.wake home t v).queue p ↔ u ∈ b.queue p ∨ p = home v ∧ u = v := by
  unfold Board.wake
  by_cases hp : p = home v
  · subst hp
    simp
  · simp [hp]

theorem wake_consistent (h : Consistent home b) (ht : ∀ u, t ∈ b.tasks u → u = v) :
    Consistent home (b.wake home t v) where
  distinct u := by
    unfold Board.wake
    by_cases hu : u = v
    · subst hu
      simpa using nodup_appendAbsent t (h.distinct u)
    · simpa [hu] using h.distinct u
  once u w x hu hw := by
    rw [mem_wake_tasks] at hu hw
    rcases hu with hu | ⟨rfl, hx⟩ <;> rcases hw with hw | ⟨rfl, hx'⟩
    · exact h.once u w x hu hw
    · exact ht u (hx' ▸ hu)
    · exact (ht w (hx ▸ hw)).symm
    · rfl
  orderly p := by
    unfold Board.wake
    by_cases hp : p = home v
    · subst hp
      simpa using nodup_appendAbsent v (h.orderly (home v))
    · simpa [hp] using h.orderly p
  queued p u := by
    rw [mem_wake_queue, h.queued p u]
    have htasks : (b.wake home t v).tasks u ≠ [] ↔ b.tasks u ≠ [] ∨ u = v := by
      unfold Board.wake
      by_cases hu : u = v
      · subst hu
        have hne : appendAbsent (b.tasks u) t ≠ [] :=
          ne_nil_of_mem (mem_appendAbsent.mpr (.inr rfl))
        simp [hne]
      · simp [hu]
    rw [htasks]
    constructor
    · rintro (⟨hp, hne⟩ | ⟨rfl, rfl⟩)
      · exact ⟨hp, .inl hne⟩
      · exact ⟨rfl, .inr rfl⟩
    · rintro ⟨rfl, hne | rfl⟩
      · exact .inl ⟨rfl, hne⟩
      · exact .inr ⟨rfl, rfl⟩
  active := h.active

end Wake

section Pick

variable {home : ν → π} {b : Board τ ν π} {p : π} {v : ν} {t : τ} {rest : List ν}

theorem mem_pick_tasks (h : Consistent home b) {x : τ} {u : ν} :
    x ∈ (b.pick p v t rest).tasks u ↔ x ∈ b.tasks u ∧ (u = v → x ≠ t) := by
  unfold Board.pick
  by_cases hu : u = v
  · subst hu
    simp [(h.distinct u).mem_erase_iff, and_comm]
  · simp [hu]

theorem pick_consistent (h : Consistent home b) (hv : v ∈ b.queue p)
    (hrest : Requeued b p v t rest) : Consistent home (b.pick p v t rest) where
  distinct u := by
    unfold Board.pick
    by_cases hu : u = v
    · subst hu
      simpa using (h.distinct u).erase t
    · simpa [hu] using h.distinct u
  once u w x hu hw :=
    h.once u w x ((mem_pick_tasks h).mp hu).1 ((mem_pick_tasks h).mp hw).1
  orderly q := by
    unfold Board.pick
    by_cases hq : q = p
    · subst hq
      simpa using hrest.nodup
    · simpa [hq] using h.orderly q
  queued q u := by
    have hhome := ((h.queued p v).mp hv).1
    unfold Board.pick
    by_cases hu : u = v
    · subst hu
      by_cases hq : q = p
      · subst hq
        simp [hrest.mem, hv, hhome]
      · have hout : u ∉ b.queue q := fun hmem => hq (((h.queued q u).mp hmem).1.symm.trans hhome)
        have hother : home u ≠ q := fun heq => hq (heq.symm.trans hhome)
        simp [hq, hout, hother]
    · by_cases hq : q = p
      · subst hq
        simp [hrest.mem, hu, h.queued]
      · simp [hq, hu, h.queued]
  active q u hcur := by
    unfold Board.pick at hcur ⊢
    by_cases hq : q = p
    · subst hq
      simp only [update_self, Option.some.injEq] at hcur
      subst hcur
      simp [((h.queued q v).mp hv).1]
    · simp only [update_of_ne hq] at hcur
      obtain ⟨hhome, htr⟩ := h.active q u hcur
      refine ⟨hhome, ?_⟩
      by_cases hu : u = v
      · simp [hu]
      · simpa [hu] using htr

end Pick

section Schedule

variable {home : ν → π} {b b' : Board τ ν π} {p : π} {selected : Option τ}

section

variable (h : Consistent home b)
include h

variable (hstep : Schedule b p selected b')
include hstep

theorem schedule_consistent :
    Consistent home b' := by
  cases hstep with
  | idle =>
    refine { h with active := ?_ }
    intro q u hcur
    unfold Board.idle at hcur
    by_cases hq : q = p
    · simp [hq] at hcur
    · exact h.active q u (by simpa [hq] using hcur)
  | pick hv _ hrest => exact pick_consistent h hv hrest

theorem schedule_preserves {t : τ}
    {v : ν} (ht : t ∈ b.tasks v) :
    t ∈ b'.tasks v ∧ v ∈ b'.queue (home v) ∨
      selected = some t ∧ b'.current p = some v ∧ b'.tr v = some t := by
  have hafter := schedule_consistent h hstep
  have hwaiting : t ∈ b'.tasks v → v ∈ b'.queue (home v) := fun hmem =>
    (hafter.queued (home v) v).mpr ⟨rfl, ne_nil_of_mem hmem⟩
  cases hstep with
  | idle => exact .inl ⟨ht, hwaiting ht⟩
  | @pick w x rest hw hx hrest =>
    by_cases hchosen : v = w ∧ t = x
    · obtain ⟨rfl, rfl⟩ := hchosen
      simp [Board.pick]
    · have hmem : t ∈ (b.pick p w x rest).tasks v :=
        (mem_pick_tasks h).mpr ⟨ht, fun hv hx => hchosen ⟨hv, hx⟩⟩
      exact .inl ⟨hmem, hwaiting hmem⟩

theorem schedule_selected {t : τ}
    (ht : selected = some t) : ∃ v, home v = p ∧ t ∈ b.tasks v := by
  cases hstep with
  | idle => exact absurd ht (Option.some_ne_none t).symm
  | @pick v x rest hv hx hrest => exact ⟨v, ((h.queued p v).mp hv).1, Option.some.inj ht ▸ hx⟩

theorem schedule_tasks_subset {t : τ}
    {v : ν} (ht : t ∈ b'.tasks v) : t ∈ b.tasks v := by
  cases hstep with
  | idle => exact ht
  | pick => exact ((mem_pick_tasks h).mp ht).1

end

theorem schedule_tasks_other (hstep : Schedule b p selected b') {v : ν}
    (hv : b'.current p ≠ some v) : b'.tasks v = b.tasks v := by
  cases hstep with
  | idle => rfl
  | @pick w t rest hw ht hrest =>
    have hne : v ≠ w := by
      rintro rfl
      exact hv (update_self _ _ _)
    exact update_of_ne hne _ _

theorem schedule_current_other (hstep : Schedule b p selected b') {q : π} (hq : q ≠ p) :
    b'.current q = b.current q := by
  cases hstep with
  | idle => exact update_of_ne hq _ _
  | pick => exact update_of_ne hq _ _

theorem schedule_current (h : Consistent home b) (hstep : Schedule b p selected b') {v : ν}
    (hcur : b'.current p = some v) :
    ∃ t, selected = some t ∧ t ∈ b.tasks v ∧ b'.tr v = some t ∧ t ∉ b'.tasks v := by
  cases hstep with
  | idle => simp [Board.idle] at hcur
  | @pick w t rest hw ht hrest =>
    simp only [Board.pick, update_self, Option.some.injEq] at hcur
    subst hcur
    refine ⟨t, rfl, ht, by simp [Board.pick], ?_⟩
    rw [mem_pick_tasks h]
    simp

end Schedule

/-! Theorem Exhaustion rests on the tasks that wait on a PCPU: each call that
selects a task takes that task from them. -/

section Waiting

variable {home : ν → π} {b : Board τ ν π} {p : π}

def Board.waiting (b : Board τ ν π) (p : π) : List τ :=
  (b.queue p).flatMap b.tasks

omit [DecidableEq τ] [DecidableEq ν] [DecidableEq π] in
theorem waiting_eq_nil (h : Consistent home b) : b.waiting p = [] ↔ b.queue p = [] := by
  unfold Board.waiting
  rw [flatMap_eq_nil_iff, eq_nil_iff_forall_not_mem]
  constructor
  · intro hall v hv
    exact ((h.queued p v).mp hv).2 (hall v hv)
  · exact fun hnone v hv => absurd hv (hnone v)

omit [DecidableEq τ] [DecidableEq ν] [DecidableEq π] in
theorem mem_waiting (h : Consistent home b) {t : τ} :
    t ∈ b.waiting p ↔ ∃ v, home v = p ∧ t ∈ b.tasks v := by
  unfold Board.waiting
  rw [mem_flatMap]
  constructor
  · rintro ⟨v, hv, ht⟩
    exact ⟨v, ((h.queued p v).mp hv).1, ht⟩
  · rintro ⟨v, hhome, ht⟩
    exact ⟨v, (h.queued p v).mpr ⟨hhome, ne_nil_of_mem ht⟩, ht⟩

omit [DecidableEq τ] [DecidableEq ν] [DecidableEq π] in
theorem waiting_nodup (h : Consistent home b) : (b.waiting p).Nodup := by
  unfold Board.waiting
  rw [nodup_flatMap]
  refine ⟨fun v _ => h.distinct v, (h.orderly p).imp ?_⟩
  intro u v huv t hu hv
  exact huv (h.once u v t hu hv)

theorem waiting_pick (h : Consistent home b) {v : ν} {t : τ} {rest : List ν}
    (hv : v ∈ b.queue p) (ht : t ∈ b.tasks v) (hrest : Requeued b p v t rest) :
    (b.waiting p).Perm (t :: (b.pick p v t rest).waiting p) := by
  have hbefore := waiting_nodup (p := p) h
  have hafter := waiting_nodup (p := p) (pick_consistent h hv hrest)
  have hout : t ∉ (b.pick p v t rest).waiting p := by
    rw [mem_waiting (pick_consistent h hv hrest)]
    rintro ⟨u, -, hu⟩
    obtain ⟨hmem, hne⟩ := (mem_pick_tasks h).mp hu
    exact hne (h.once u v t hmem ht) rfl
  rw [perm_ext_iff_of_nodup hbefore (nodup_cons.mpr ⟨hout, hafter⟩)]
  intro x
  rw [mem_cons, mem_waiting h, mem_waiting (pick_consistent h hv hrest)]
  constructor
  · rintro ⟨u, hhome, hx⟩
    by_cases hxt : x = t
    · exact .inl hxt
    · exact .inr ⟨u, hhome, (mem_pick_tasks h).mpr ⟨hx, fun _ => hxt⟩⟩
  · rintro (rfl | ⟨u, hhome, hx⟩)
    · exact ⟨v, ((h.queued p v).mp hv).1, ht⟩
    · exact ⟨u, hhome, ((mem_pick_tasks h).mp hx).1⟩

end Waiting

end Quest.Sched.Rules
