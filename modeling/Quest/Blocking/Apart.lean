import Quest.Blocking.Model
import Quest.Sched.Refinement

/-! What the operations do to the queues of tasks while these are apart. -/
namespace Quest.Blocking.Apart

open Lib.LinkedList Lib.Reach Sched.Hooks Sched.Queue Sched.Core Sched.Rules Sched.Refinement List Function
open Model

variable {σ τ ι κ α : Type} {n : Nat}

abbrev QueueName (τ ι κ : Type) (n : Nat) := Fin n ⊕ WaitQueue τ ι κ

def heads (k : Kernel σ τ ι κ α n) : QueueName τ ι κ n → Option τ :=
  Sum.elim k.sched.runqueue k.waitq

def members [Fintype τ] (k : Kernel σ τ ι κ α n) (q : QueueName τ ι κ n) : List τ :=
  toList k.sched.next (heads k q)

section Moves

inductive Move (τ ι κ : Type) (n : Nat) where
  | join (q : QueueName τ ι κ n) (t : τ)
  | leave (q : QueueName τ ι κ n) (t : τ)
  | transfer (q q' : QueueName τ ι κ n) (t : τ)

variable [DecidableEq τ] [DecidableEq ι] [DecidableEq κ]

def joined (nodes : QueueName τ ι κ n → List τ) (q : QueueName τ ι κ n) (t : τ) :
    QueueName τ ι κ n → List τ := update nodes q (appendAbsent (nodes q) t)

def without (nodes : QueueName τ ι κ n → List τ) (q : QueueName τ ι κ n) (t : τ) :
    QueueName τ ι κ n → List τ := update nodes q ((nodes q).erase t)

def Move.apply (nodes : QueueName τ ι κ n → List τ) : Move τ ι κ n → QueueName τ ι κ n → List τ
  | join q t => joined nodes q t
  | leave q t => without nodes q t
  | transfer q q' t => joined (without nodes q t) q' t

def Moves (permitted : Move τ ι κ n → Prop) (nodes nodes' : QueueName τ ι κ n → List τ) : Prop :=
  Reaches (fun nodes (move : Move τ ι κ n) => (.ok (move.apply nodes) : Except Fault _))
    (fun _ move => permitted move) nodes nodes'

variable {permitted : Move τ ι κ n → Prop} {nodes : QueueName τ ι κ n → List τ}
  {b : Board τ (Fin n) Nat} {w : WaitQueue τ ι κ → List τ}

theorem Moves.one {move : Move τ ι κ n} (h : permitted move) :
    Moves permitted nodes (move.apply nodes) := Reaches.refl.tail h rfl

variable {q q' : QueueName τ ι κ n}

theorem mem_joined {t x : τ} (h : x ∈ joined nodes q t q') : x ∈ nodes q' ∨ q' = q ∧ x = t := by
  by_cases hq : q' = q
  · subst hq
    rw [joined, update_self, mem_appendAbsent] at h
    exact h.imp_right fun hx => ⟨rfl, hx⟩
  · rw [joined, update_of_ne hq] at h
    exact .inl h

theorem mem_without {t x : τ} (h : x ∈ without nodes q t q') : x ∈ nodes q' := by
  by_cases hq : q' = q
  · subst hq
    rw [without, update_self] at h
    exact mem_of_mem_erase h
  · rwa [without, update_of_ne hq] at h

theorem Moves.mem {nodes' : QueueName τ ι κ n → List τ} (h : Moves permitted nodes nodes') {t : τ}
    (ht : t ∈ nodes' q) :
    t ∈ nodes q ∨ permitted (.join q t) ∨ ∃ q', permitted (.transfer q' q t) := by
  induction h with
  | refl => exact .inl ht
  | @tail nodes1 nodes2 move hmoves hperm hstep ih =>
    cases hstep
    cases move with
    | join q' x =>
      rcases mem_joined ht with hold | ⟨rfl, rfl⟩
      · exact ih hold
      · exact .inr (.inl hperm)
    | leave q' x => exact ih (mem_without ht)
    | transfer q' q'' x =>
      rcases mem_joined ht with hold | ⟨rfl, rfl⟩
      · exact ih (mem_without hold)
      · exact .inr (.inr ⟨q', hperm⟩)

theorem wake_eq_join (home : Fin n → Nat) (t : τ) (v : Fin n) :
    Sum.elim (b.wake home t v).tasks w = (Move.join (.inl v) t).apply (Sum.elim b.tasks w) := by
  simp only [Move.apply, joined, Board.wake, Sum.elim_inl, Sum.update_elim_inl]

theorem pick_eq_leave (p : Nat) (v : Fin n) (t : τ) (rest : List (Fin n)) :
    Sum.elim (b.pick p v t rest).tasks w = (Move.leave (.inl v) t).apply (Sum.elim b.tasks w) := by
  simp only [Move.apply, without, Board.pick, Sum.elim_inl, Sum.update_elim_inl]

theorem wait_eq_join (q : WaitQueue τ ι κ) (t : τ) :
    Sum.elim b.tasks (update w q (appendAbsent (w q) t)) =
      (Move.join (.inr q) t).apply (Sum.elim b.tasks w) := by
  simp only [Move.apply, joined, Sum.elim_inr, Sum.update_elim_inr]

theorem release_eq_transfer (home : Fin n → Nat) (q : WaitQueue τ ι κ) (t : τ) (v : Fin n) :
    Sum.elim (b.wake home t v).tasks (update w q ((w q).erase t)) =
      (Move.transfer (.inr q) (.inl v) t).apply (Sum.elim b.tasks w) := by
  rw [wake_eq_join]
  simp only [Move.apply, without, Sum.elim_inr, Sum.update_elim_inr]

end Moves

/-- The queues are apart, a task that runs is on no wait queue unless it is about to call
`schedule`, and it runs on one PCPU unless it is an idle task. -/
structure Separate (cfg : Config σ τ n) (k : Kernel σ τ ι κ α n) (b : Board τ (Fin n) Nat)
    (w : WaitQueue τ ι κ → List τ) : Prop where
  sound : Sound cfg k.sched.toLinks b
  waits : Threaded k.sched.next k.waitq w
  apart : ∀ v t q, t ∈ b.tasks v → t ∉ w q
  running : ∀ p t, k.sched.str p = some t → k.blocking p = false → ∀ q, t ∉ w q
  homed : ∀ p t, k.sched.str p = some t →
    t = cfg.idleTss p ∨ ∃ v : Fin n, k.sched.binding t = v ∧ cfg.cpu v = p
  idle : ∀ p q, cfg.idleTss p ∉ w q
  idleTask : ∀ p t, k.sched.vcpuIdleTask p = some t → t = cfg.idleTss p

variable {cfg : Config σ τ n} {k k' : Kernel σ τ ι κ α n} {b : Board τ (Fin n) Nat}
  {w w' : WaitQueue τ ι κ → List τ} {p : Nat} {task : τ}

theorem Separate.members_eq [Fintype τ] (h : Separate cfg k b w) :
    members k = Sum.elim b.tasks w := by
  funext q
  cases q with
  | inl v => exact toList_eq (h.sound.tasks.chain v)
  | inr q => exact toList_eq (h.waits.chain q)

theorem Separate.threaded (h : Separate cfg k b w) :
    Threaded k.sched.next (heads k) (Sum.elim b.tasks w) :=
  h.sound.tasks.sum h.waits fun v q t => h.apart v t q

section Wakeup

variable [DecidableEq τ] {s' : Scheduler σ τ n} {v : Fin n}

theorem woken_separate (h : Separate cfg k b w) (hwoken : Woken cfg k.sched s' b task v)
    (hsched : k'.sched = { s' with next := k'.sched.next }) (hblock : k'.blocking = k.blocking)
    (hnext : ∀ u, ∀ t ∈ (b.wake cfg.cpu task v).tasks u, k'.sched.next t = s'.next t)
    (hwaits : Threaded k'.sched.next k'.waitq w')
    (hfewer : ∀ q, ∀ t ∈ w' q, t ∈ w q ∧ t ≠ task) :
    Separate cfg k' (b.wake cfg.cpu task v) w' := by
  have hlinks : k'.sched.toLinks = { s'.toLinks with next := k'.sched.next } :=
    congrArg Scheduler.toLinks hsched
  have hbind : k'.sched.binding = s'.binding := congrArg (fun s => s.binding) hsched
  have hstr : k'.sched.str = k.sched.str := (congrArg Scheduler.str hsched).trans hwoken.str
  have hidleTask : k'.sched.vcpuIdleTask = k.sched.vcpuIdleTask :=
    (congrArg Scheduler.vcpuIdleTask hsched).trans hwoken.idle
  refine ⟨?_, hwaits, ?_, ?_, ?_, ?_, ?_⟩
  · rw [hlinks]
    exact hwoken.sound.setNext hnext
  · intro u t q ht hmem
    obtain ⟨hwait, hne⟩ := hfewer q t hmem
    rcases mem_wake_tasks.mp ht with hold | ⟨-, rfl⟩
    · exact h.apart u t q hold hwait
    · exact hne rfl
  · intro p t ht hrun q hmem
    rw [hstr] at ht
    rw [hblock] at hrun
    exact h.running p t ht hrun q (hfewer q t hmem).1
  · intro p t ht
    rw [hstr] at ht
    rcases h.homed p t ht with hidle | ⟨u, hu, hcpu⟩
    · exact .inl hidle
    · have hfits := cfg.unbound_free
      refine .inr ⟨u, ?_, hcpu⟩
      rw [hbind, hwoken.binding t (by omega), hu]
  · exact fun p q hmem => h.idle p q (hfewer q _ hmem).1
  · rw [hidleTask]
    exact h.idleTask

variable [Fintype τ] {tsc : WakeupTsc}

theorem wakeup_separate (h : Separate cfg k b w) (htask : ∀ q, task ∉ w q)
    (hstep : k.wakeup cfg p task tsc = .ok k') :
    ∃ v, Separate cfg k' (b.wake cfg.cpu task v) w ∧ k'.sched.str = k.sched.str ∧
      k'.blocking = k.blocking := by
  obtain ⟨s', hwake, hk'⟩ := bind_eq_ok.mp hstep
  cases hk'
  obtain ⟨v, hwoken, -⟩ := vcpuWakeup_refines h.sound hwake
  have hne : ∀ q, ∀ t ∈ w q, t ≠ task := by
    rintro q t ht rfl
    exact htask q ht
  refine ⟨v, woken_separate h hwoken rfl rfl (fun _ _ _ => rfl) ?_ ?_, hwoken.str, rfl⟩
  · apply h.waits.congr
    intro q t ht
    exact hwoken.next t (fun u hu => h.apart u t q hu ht) (hne q t ht)
  · exact fun q t ht => ⟨ht, hne q t ht⟩

theorem schedule_separate {tsc : ScheduleTsc n} (h : Separate cfg k b w)
    (hstep : k.schedule cfg p tsc = .ok k') :
    ∃ b' selected, Schedule b p selected b' ∧ Separate cfg k' b' w ∧
      k'.sched.str = update k.sched.str p (some (selected.getD (cfg.idleTss p))) ∧
      k'.blocking = update k.blocking p false := by
  obtain ⟨s', hschedule, hk'⟩ := bind_eq_ok.mp hstep
  cases hk'
  obtain ⟨b', selected, hsched⟩ := vcpuSchedule_refines h.sound hschedule
  have hidle : (k.sched.vcpuIdleTask p).getD (cfg.idleTss p) = cfg.idleTss p := by
    cases htask : k.sched.vcpuIdleTask p with
    | none => rfl
    | some t => exact h.idleTask p t htask
  have hboard := h.sound.consistent
  have hstr := hsched.str
  rw [hidle] at hstr
  -- The task that runs now is the idle task or was on a runqueue of this PCPU.
  have hnow : ∀ t, s'.str p = some t →
      t = cfg.idleTss p ∨ ∃ v, cfg.cpu v = p ∧ t ∈ b.tasks v := by
    intro t ht
    rw [hstr, update_self, Option.some.injEq] at ht
    cases hsel : selected with
    | none =>
      rw [hsel, Option.getD_none] at ht
      exact .inl ht.symm
    | some x =>
      rw [hsel, Option.getD_some] at ht
      exact .inr (schedule_selected hboard hsched.rule (hsel.trans (congrArg some ht)))
  have hthen : ∀ q, q ≠ p → s'.str q = k.sched.str q := by
    intro q hq
    rw [hstr, update_of_ne hq]
  refine ⟨b', selected, hsched.rule, ⟨hsched.sound, ?_, ?_, ?_, ?_, h.idle, ?_⟩, hstr,
    rfl⟩
  · apply h.waits.congr
    intro q t ht
    exact hsched.next t fun u hu => h.apart u t q hu ht
  · intro u t q ht
    exact h.apart u t q (schedule_tasks_subset hboard hsched.rule ht)
  · intro p' t ht hrun q
    simp only [Kernel.setBlocking] at ht hrun
    by_cases hp : p' = p
    · subst hp
      rcases hnow t ht with rfl | ⟨v, -, hv⟩
      · exact h.idle p' q
      · exact h.apart v t q hv
    · rw [hthen p' hp] at ht
      rw [update_of_ne hp] at hrun
      exact h.running p' t ht hrun q
  · intro p' t ht
    simp only [Kernel.setBlocking] at ht ⊢
    rw [hsched.binding]
    by_cases hp : p' = p
    · subst hp
      rcases hnow t ht with hidle | ⟨v, hcpu, hv⟩
      · exact .inl hidle
      · exact .inr ⟨v, h.sound.bound v t hv, hcpu⟩
    · rw [hthen p' hp] at ht
      exact h.homed p' t ht
  · intro q t ht
    rcases hsched.idleTask q t ht with hbefore | hidle
    · exact h.idleTask q t hbefore
    · exact hidle

end Wakeup

theorem Separate.weaken (h : Separate cfg k b w) (hlinks : k'.sched.toLinks = k.sched.toLinks)
    (hidle : k'.sched.vcpuIdleTask = k.sched.vcpuIdleTask) (hwaitq : k'.waitq = k.waitq)
    (hstr : ∀ p t, k'.sched.str p = some t → k.sched.str p = some t)
    (hblock : ∀ p, k'.blocking p = false → k.blocking p = false) : Separate cfg k' b w := by
  refine ⟨?_, ?_, h.apart, ?_, ?_, h.idle, ?_⟩
  · rw [hlinks]
    exact h.sound
  · rw [hlinks, hwaitq]
    exact h.waits
  · exact fun p t ht hrun => h.running p t (hstr p t ht) (hblock p hrun)
  · rw [hlinks]
    exact fun p t ht => h.homed p t (hstr p t ht)
  · rw [hidle]
    exact h.idleTask

section Operations

variable [DecidableEq τ] [DecidableEq ι] [DecidableEq κ] [Fintype τ]

variable {q : WaitQueue τ ι κ}

theorem wait_separate (h : Separate cfg k b w) (hstr : k.sched.str p = some task)
    (hrun : k.blocking p = false) (hfree : ∀ v, task ∉ b.tasks v)
    (hidle : ∀ p, cfg.idleTss p ≠ task) (hstep : k.wait p q = .ok k') :
    Separate cfg k' b (update w q (appendAbsent (w q) task)) := by
  have hwaits := h.running p task hstr hrun
  obtain ⟨head, next, happ, hthreaded, hframe⟩ :=
    queueAppend_spec h.waits q task fun q' hmem => absurd hmem (hwaits q')
  unfold Kernel.wait at hstep
  rw [hstr, deref_some, ok_bind, happ, ok_bind] at hstep
  cases hstep
  have hmem : ∀ q' t, t ∈ update w q (appendAbsent (w q) task) q' →
      t ∈ w q' ∨ t = task := by
    intro q' t ht
    by_cases hq : q' = q
    · subst hq
      rwa [update_self, mem_appendAbsent] at ht
    · rw [update_of_ne hq] at ht
      exact .inl ht
  refine ⟨h.sound.setNext ?_, hthreaded, ?_, ?_, h.homed, ?_, h.idleTask⟩
  · intro v t ht
    apply hframe t (h.apart v t q ht)
    rintro rfl
    exact hfree v ht
  · intro v t q' ht hwait
    rcases hmem q' t hwait with hold | rfl
    · exact h.apart v t q' ht hold
    · exact hfree v ht
  · intro p' t ht hblock q' hwait
    have hp : p' ≠ p := by
      rintro rfl
      simp [Kernel.setBlocking] at hblock
    have hother : k.blocking p' = false := by
      simpa [Kernel.setBlocking, Kernel.setWaitq, Kernel.setNext, hp] using hblock
    rcases hmem q' t hwait with hold | rfl
    · exact h.running p' t ht hother q' hold
    -- The task runs on one PCPU only, the one of its VCPU.
    · rcases h.homed p' t ht with hidle' | ⟨v, hv, hcpu⟩
      · exact hidle p' hidle'.symm
      · rcases h.homed p t hstr with hidle' | ⟨u, hu, hcpu'⟩
        · exact hidle p hidle'.symm
        · have huv : v = u := Fin.ext (hv.symm.trans hu)
          exact hp (hcpu.symm.trans (huv ▸ hcpu'))
  · intro p' q' hwait
    rcases hmem q' _ hwait with hold | heq
    · exact h.idle p' q' hold
    · exact hidle p' heq

def Moved (cfg : Config σ τ n) (permitted : Move τ ι κ n → Prop)
    (nodes : QueueName τ ι κ n → List τ) (k : Kernel σ τ ι κ α n) : Prop :=
  ∃ b w, Separate cfg k b w ∧ Moves permitted nodes (Sum.elim b.tasks w)

variable {permitted : Move τ ι κ n → Prop} {nodes : QueueName τ ι κ n → List τ}
  {tsc : τ → WakeupTsc}

omit [Fintype τ] in
theorem Separate.mem_erase (h : Separate cfg k b w) (ht : task ∈ w q) :
    ∀ q', ∀ t ∈ update w q ((w q).erase task) q', t ∈ w q' ∧ t ≠ task := by
  intro q' t hmem
  by_cases hq : q' = q
  · subst hq
    rw [update_self, (h.waits.chain q').nodup.mem_erase_iff] at hmem
    exact ⟨hmem.2, hmem.1⟩
  · rw [update_of_ne hq] at hmem
    refine ⟨hmem, ?_⟩
    rintro rfl
    exact hq (h.waits.apart q' q t hmem ht)

theorem wakeupLoop_moved {fuel : Nat} (h : Separate cfg k b w)
    (hmoves : Moves permitted nodes (Sum.elim b.tasks w))
    (hperm : ∀ t ∈ w q, ∀ v, permitted (.transfer (.inr q) (.inl v) t))
    (hstep : Kernel.wakeupLoop cfg p tsc q fuel k = .ok k') : Moved cfg permitted nodes k' := by
  induction fuel generalizing k b w with
  | zero => cases hstep
  | succ fuel ih =>
    obtain ⟨hhead, htail⟩ := queueRemoveHead_spec h.waits q
    rw [Kernel.wakeupLoop] at hstep
    cases hq : w q with
    | nil =>
      rw [hq, head?_nil] at hhead
      simp only [hhead] at hstep
      cases hstep
      exact ⟨b, w, h, hmoves⟩
    | cons t rest =>
      have ht : t ∈ w q := hq ▸ mem_cons_self
      have herase : (w q).tail = (w q).erase t := by
        rw [hq, tail_cons, erase_cons_head]
      have hfewer := h.mem_erase ht
      rw [hq, head?_cons] at hhead
      rw [herase] at htail
      simp only [hhead] at hstep
      obtain ⟨k1, hk1, hloop⟩ := bind_eq_ok.mp hstep
      obtain ⟨s', hwake, heq⟩ := bind_eq_ok.mp hk1
      cases heq
      obtain ⟨v, hwoken, -⟩ := vcpuWakeup_refines h.sound hwake
      have hwaits := htail.congr fun q' x hx => hwoken.next x
        (fun u hu => h.apart u x q' hu (hfewer q' x hx).1) (hfewer q' x hx).2
      refine ih (b := b.wake cfg.cpu t v) (w := update w q ((w q).erase t)) ?_ ?_ ?_ hloop
      · exact woken_separate h hwoken rfl rfl (fun _ _ _ => rfl) hwaits hfewer
      · rw [release_eq_transfer]
        exact hmoves.tail (hperm t ht v) rfl
      · exact fun x hx => hperm x (hfewer q x hx).1

theorem sleepLoop_moved {now fuel : Nat} {xs ys : List τ} (h : Separate cfg k b w)
    (hmoves : Moves permitted nodes (Sum.elim b.tasks w))
    (hsleep : w .sleepqueue = xs ++ task :: ys)
    (hperm : ∀ t ∈ task :: ys, k.time t ≤ now → ∀ v,
      permitted (.transfer (.inr .sleepqueue) (.inl v) t))
    (hstep : Kernel.sleepLoop cfg p now tsc fuel (linkAfter none xs) task k = .ok k') :
    Moved cfg permitted nodes k' := by
  induction fuel generalizing k b w xs ys task with
  | zero => cases hstep
  | succ fuel ih =>
    have hchain := h.waits.chain .sleepqueue
    rw [hsleep] at hchain
    have hrest : Chain k.sched.next (k.sched.next task) ys := hchain.of_mem
    have hnodup := nodup_append.mp hchain.nodup
    have htarget : follow k.sched.next (k.waitq .sleepqueue) (linkAfter none xs) = some task :=
      (follow_linkAfter none hchain).1
    obtain ⟨⟨q, k1⟩, hbody, hstep⟩ := bind_eq_ok.mp hstep
    -- What the loop does with the rest of the queue, in the state that the body leaves.
    have hnext : ∀ b1 w1 xs1, Separate cfg k1 b1 w1 →
        Moves permitted nodes (Sum.elim b1.tasks w1) → w1 .sleepqueue = xs1 ++ ys →
        q = linkAfter none xs1 → (∀ t ∈ ys, k1.time t = k.time t) →
        Moved cfg permitted nodes k' := by
      intro b1 w1 xs1 h1 hmoves1 hsleep1 hq htime
      cases ys with
      | nil =>
        rw [chain_nil] at hrest
        simp only [hrest] at hstep
        cases hstep
        exact ⟨b1, w1, h1, hmoves1⟩
      | cons y ys =>
        have hchain1 := h1.waits.chain .sleepqueue
        rw [hsleep1] at hchain1
        have hfollow : follow k1.sched.next (k1.waitq .sleepqueue) q = some y :=
          hq ▸ (follow_linkAfter none hchain1).1
        simp only [hrest.1, hfollow, deref_some, ok_bind] at hstep
        refine ih h1 hmoves1 hsleep1 ?_ (hq ▸ hstep)
        intro t ht hdue
        rw [htime t ht] at hdue
        exact hperm t (mem_cons_of_mem task ht) hdue
    split at hbody
    · rename_i hdue
      rw [htarget, deref_some, ok_bind] at hbody
      obtain ⟨k2, hk2, hbody⟩ := bind_eq_ok.mp hbody
      obtain ⟨s', hwake, heq⟩ := bind_eq_ok.mp hk2
      cases heq
      cases hbody
      obtain ⟨v, hwoken, -⟩ := vcpuWakeup_refines h.sound hwake
      have ht : task ∈ w .sleepqueue := by simp [hsleep]
      have hfewer := h.mem_erase ht
      have htask : task ∉ xs := fun hmem => hnodup.2.2 task hmem task mem_cons_self rfl
      have herase : (w .sleepqueue).erase task = xs ++ ys := by
        rw [hsleep, erase_append_right _ htask, erase_cons_head]
      have hunlink := h.waits.unlink hsleep
      rw [← herase] at hunlink
      have hwaits := hunlink.congr fun q x hx => store_congr (k.waitq .sleepqueue)
        (linkAfter none xs) (k.sched.next task) (hwoken.next x
          (fun u hu => h.apart u x q hu (hfewer q x hx).1) (hfewer q x hx).2)
      rw [← store_head k.sched.next s'.next] at hwaits
      have hframe : ∀ u, ∀ t ∈ (b.wake cfg.cpu task v).tasks u,
          (store s'.next (k.waitq .sleepqueue) (linkAfter none xs) (k.sched.next task)).2 t =
            s'.next t := by
        intro u t hmem
        apply store_frame
        rcases mem_wake_tasks.mp hmem with hold | ⟨-, rfl⟩
        · intro hxs
          exact h.apart u t .sleepqueue hold (by simp [hsleep, hxs])
        · exact htask
      refine hnext _ _ xs (woken_separate h hwoken rfl rfl hframe hwaits hfewer) ?_ ?_ rfl ?_
      · rw [release_eq_transfer]
        exact hmoves.tail (hperm task mem_cons_self hdue v) rfl
      · rw [update_self, herase]
      · intro t hys
        have hne : t ≠ task := by
          rintro rfl
          exact (nodup_cons.mp hnodup.2.1).1 hys
        exact update_of_ne hne _ _
    · cases hbody
      refine hnext b w (xs ++ [task]) h hmoves ?_ ?_ fun _ _ => rfl
      · rw [hsleep, append_assoc, singleton_append]
      · simp [linkAfter]

end Operations

end Quest.Blocking.Apart
