import Quest.Sched.Refinement

/-! The rules of `docs/vcpu.tex` for the tasks of one VCPU, and the code for them. -/
namespace Quest.Sched.SecondLevel

open Lib.LinkedList Sched.Core Sched.Queue Refinement List Function

variable {τ : Type} [DecidableEq τ]

/-- A VCPU of the document: its task, what is left of the quantum, and the runqueue. -/
structure Turn (τ : Type) where
  tr : Option τ
  left : Nat
  runqueue : List τ

/-- The code starts a new quantum in s3, too, where the document goes on with the old one. -/
inductive Schedule (Q : Nat) : Turn τ → Turn τ → Prop where
  | s1 {tr : Option τ} {t : τ} {ts : List τ} : Schedule Q ⟨tr, 0, t :: ts⟩ ⟨some t, Q, ts⟩
  | s2 {t : τ} {n : Nat} {ts : List τ} : 0 < n → t ∈ ts →
      Schedule Q ⟨some t, n, ts⟩ ⟨some t, n, ts.erase t⟩
  | s3 {t u : τ} {n : Nat} {ts : List τ} : 0 < n → t ∉ u :: ts →
      Schedule Q ⟨some t, n, u :: ts⟩ ⟨some u, Q, ts⟩

inductive Wakeup (t : τ) : Turn τ → Turn τ → Prop where
  | w1 {tr : Option τ} {n : Nat} {ts : List τ} : t ∉ ts →
      Wakeup t ⟨tr, n, ts⟩ ⟨tr, n, ts ++ [t]⟩
  | w2 {tr : Option τ} {n : Nat} {ts : List τ} : t ∈ ts → Wakeup t ⟨tr, n, ts⟩ ⟨tr, n, ts⟩

variable {tr : Option τ} {n Q : Nat} {t u : τ} {ts : List τ} {y : Turn τ}

theorem schedule_same (hn : 0 < n) (ht : t ∈ ts) :
    Schedule Q ⟨some t, n, ts⟩ y ↔ y = ⟨some t, n, ts.erase t⟩ := by
  constructor
  · intro h
    cases h with
    | s1 => cases hn
    | s2 => rfl
    | s3 _ hout => exact absurd ht hout
  · rintro rfl
    exact .s2 hn ht

theorem schedule_head (h : 0 < n → ∃ t, tr = some t ∧ t ∉ u :: ts) :
    Schedule Q ⟨tr, n, u :: ts⟩ y ↔ y = ⟨some u, Q, ts⟩ := by
  constructor
  · intro hy
    cases hy with
    | s1 => rfl
    | s2 hn ht =>
      obtain ⟨_, ⟨⟩, hout⟩ := h hn
      exact absurd ht hout
    | s3 => rfl
  · rintro rfl
    rcases Nat.eq_zero_or_pos n with rfl | hn
    · exact .s1
    · obtain ⟨t, rfl, hout⟩ := h hn
      exact .s3 hn hout

theorem wakeup_iff : Wakeup t ⟨tr, n, ts⟩ y ↔ y = ⟨tr, n, appendAbsent ts t⟩ := by
  rw [appendAbsent]
  constructor
  · rintro (hout | hmem)
    · rw [if_neg hout]
    · rw [if_pos hmem]
  · rintro rfl
    split
    · exact .w2 (by assumption)
    · exact .w1 (by assumption)

def turn (now : Nat) (vcpu : Vcpu τ) (runqueue : List τ) : Turn τ :=
  ⟨vcpu.tr, vcpu.nextSchedule - now, runqueue⟩

/-- `vcpu_internal_schedule` is the one rule that applies, `queue_append` is a wakeup, and a task
that is queued already changes nothing. -/
theorem second_level_refines [Fintype τ] {ι : Type} [DecidableEq ι] {next : τ → Option τ}
    {queue : ι → Option τ} {nodes : ι → List τ} (h : Threaded next queue nodes) (i : ι)
    (vcpu : Vcpu τ) (now quantum : Nat) (hne : nodes i ≠ [])
    (htr : vcpu.tr ≠ none ∨ vcpu.nextSchedule = 0) :
    (∃ vcpu' t head next', internalSchedule vcpu now quantum next (queue i) =
        .ok (vcpu', head, next') ∧ vcpu'.tr = some t ∧ t ∈ nodes i ∧
      Threaded next' (update queue i head) (update nodes i ((nodes i).erase t)) ∧
      ∀ y, Schedule (u64 (now + quantum) - now) (turn now vcpu (nodes i)) y ↔
        y = turn now vcpu' ((nodes i).erase t)) ∧
    (now + quantum < 2 ^ 64 → u64 (now + quantum) - now = quantum) ∧
    ∀ t, (∀ j, t ∈ nodes j → j = i) →
      ∃ head next', queueAppend next (queue i) t = .ok (head, next') ∧
        Threaded next' (update queue i head) (update nodes i (appendAbsent (nodes i) t)) ∧
        (∀ y, Wakeup t (turn now vcpu (nodes i)) y ↔
          y = turn now vcpu (appendAbsent (nodes i) t)) ∧
        (t ∈ nodes i → head = queue i ∧ next' = next) := by
  refine ⟨?_, fun hlt => ?_, fun t ht => ?_⟩
  · obtain ⟨u, us, hi⟩ := exists_cons_of_ne_nil hne
    rw [internalSchedule_eq (h.chain i)]
    split
    · rename_i hkeep
      obtain ⟨hquant, hleft, hqueued⟩ := hkeep
      obtain ⟨t, ht⟩ := Option.ne_none_iff_exists'.mp (htr.resolve_right hquant)
      have hmem := hqueued t ht
      obtain ⟨head, next', hrem, hthreaded, -⟩ := vcpuRemoveFromRunqueue_spec h i hmem
      rw [ht, hrem]
      refine ⟨vcpu, t, head, next', rfl, ht, hmem, hthreaded, fun y => ?_⟩
      rw [turn, ht, turn, ht]
      exact schedule_same (by omega) hmem
    · rename_i hnext
      obtain ⟨-, htail⟩ := queueRemoveHead_spec h i
      rw [hi] at htail ⊢
      refine ⟨_, u, _, _, rfl, rfl, mem_cons_self, by simpa using htail, fun y => ?_⟩
      rw [erase_cons_head, turn, turn, head?_cons]
      apply schedule_head
      intro hleft
      obtain ⟨t, ht⟩ := Option.ne_none_iff_exists'.mp (htr.resolve_right (by omega))
      refine ⟨t, ht, fun hmem => hnext ⟨by omega, by omega, fun t' ht' => ?_⟩⟩
      rw [ht, Option.some.injEq] at ht'
      exact ht' ▸ hi ▸ hmem
  · rw [u64]
    omega
  · obtain ⟨head, next', happ, hthreaded, -⟩ := queueAppend_spec h i t ht
    refine ⟨head, next', happ, hthreaded, fun y => wakeup_iff, fun hmem => ?_⟩
    rw [queueAppend_present (h.chain i) hmem] at happ
    cases happ
    exact ⟨rfl, rfl⟩

theorem second_level_refines_two_tasks : ∃ vcpu' t head next',
    internalSchedule ⟨true, true, some (1 : Fin 2), 10⟩ 3 5
      (fun x => if x = 0 then some 1 else none) (some 0) = .ok (vcpu', head, next') ∧
    vcpu'.tr = some t ∧ t ∈ [0, 1] := by
  have h : Threaded (fun x => if x = 0 then some 1 else none) (fun _ : Unit => some (0 : Fin 2))
      fun _ => [0, 1] := ⟨fun _ => ⟨rfl, rfl, rfl⟩, fun _ _ _ _ _ => rfl⟩
  obtain ⟨⟨vcpu', t, head, next', hret, ht, hmem, -⟩, -⟩ :=
    second_level_refines h () ⟨true, true, some 1, 10⟩ 3 5 (by simp) (.inl (by simp))
  exact ⟨vcpu', t, head, next', hret, ht, hmem⟩

end Quest.Sched.SecondLevel
