import Quest.Basic
import Quest.Lib.LinkedList

/-! The queues of the scheduler, through the `next` fields of the TSS (`sched/sched.c`) and of the
VCPU (`sched/vcpu.c`).  Selector 0 and NULL are `none`. -/
namespace Quest.Sched.Queue

open Lib.LinkedList List Function

variable {κ : Type} [DecidableEq κ] [Fintype κ]

/-- The link that points to `x`, or the last link if `x` is not on the queue.  On a cyclic queue
the walk never ends. -/
def find (next : κ → Option κ) (queue x : Option κ) : Except Fault (Option κ) :=
  terminated (seek next queue (fun y => some y = x) (Fintype.card κ + 1) none)

def queueAppend (next : κ → Option κ) (queue : Option κ) (selector : κ) :
    Except Fault (Option κ × (κ → Option κ)) := do
  let link ← find next queue (some selector)
  match follow next queue link with
  | some _ => .ok (queue, next)
  | none =>
      let stored := store next queue link (some selector)
      .ok (stored.1, update stored.2 selector none)

/-- `queue_remove_head` and `vcpu_queue_remove_head`.  The `next` field of the head is left as it
is. -/
def queueRemoveHead (next : κ → Option κ) : Option κ → Option κ × Option κ
  | none => (none, none)
  | some head => (some head, next head)

/-- `vcpu_in_runqueue`.  It answers TRUE for task 0, on every runqueue. -/
def vcpuInRunqueue (next : κ → Option κ) (runqueue task : Option κ) : Except Fault Bool := do
  let link ← find next runqueue task
  .ok (follow next runqueue link = task)

def vcpuRemoveFromRunqueue (next : κ → Option κ) (runqueue task : Option κ) :
    Except Fault (Option κ × (κ → Option κ)) := do
  let link ← find next runqueue task
  match follow next runqueue link with
  | some x => .ok (store next runqueue link (next x))
  | none => .ok (runqueue, next)

/-- `vcpu_queue_append`.  It clears the `next` field before it links the VCPU in,
where `queue_append` does so after it. -/
def vcpuQueueAppend (next : κ → Option κ) (queue : Option κ) (vcpu : κ) :
    Except Fault (Option κ × (κ → Option κ)) := do
  let link ← find next queue (some vcpu)
  match follow next queue link with
  | some _ => .ok (queue, next)
  | none => .ok (store (update next vcpu none) queue link (some vcpu))

def toList (next : κ → Option κ) (queue : Option κ) : List κ :=
  nodesFrom next (Fintype.card κ) queue

omit [DecidableEq κ] in
theorem toList_eq {next : κ → Option κ} {queue : Option κ} {nodes : List κ}
    (h : Chain next queue nodes) : toList next queue = nodes :=
  h.nodesFrom_eq h.length_le

def appendAbsent (nodes : List κ) (x : κ) : List κ :=
  if x ∈ nodes then nodes else nodes ++ [x]

omit [Fintype κ] in
@[simp] theorem mem_appendAbsent {nodes : List κ} {x y : κ} :
    y ∈ appendAbsent nodes x ↔ y ∈ nodes ∨ y = x := by
  unfold appendAbsent
  split
  · rename_i hmem
    constructor
    · exact .inl
    · rintro (hy | rfl)
      · exact hy
      · exact hmem
  · rw [mem_append, mem_singleton]

section Find

variable {next : κ → Option κ} {queue : Option κ}

theorem find_eq (x : Option κ) {nodes : List κ} (h : Chain next queue nodes) :
    find next queue x = .ok (linkAfter none (nodes.takeWhile fun y => !decide (some y = x))) := by
  unfold find
  rw [seek_eq next queue _ _ none nodes h (Nat.lt_succ_of_le h.length_le), terminated_some]

theorem find_present {x : κ} {xs ys : List κ} (h : Chain next queue (xs ++ x :: ys)) :
    find next queue (some x) = .ok (linkAfter none xs) ∧
      follow next queue (linkAfter none xs) = some x := by
  have hbefore : ∀ y ∈ xs, (!decide (some y = some x)) = true := by
    intro y hy
    have hne : y ≠ x := (nodup_append.mp h.nodup).2.2 y hy x mem_cons_self
    simp [hne]
  constructor
  · rw [find_eq _ h, takeWhile_append_of_pos hbefore, takeWhile_cons_of_neg (by simp),
      append_nil]
  · exact (follow_linkAfter none h).1

theorem find_absent {x : Option κ} {nodes : List κ} (h : Chain next queue nodes)
    (hx : ∀ y ∈ nodes, some y ≠ x) :
    find next queue x = .ok (linkAfter none nodes) ∧
      follow next queue (linkAfter none nodes) = none := by
  rw [← append_nil nodes] at h
  constructor
  · rw [find_eq x h, takeWhile_append_of_pos, takeWhile_nil, append_nil]
    intro y hy
    simp [hx y hy]
  · exact follow_linkAfter none h

end Find

/-! The operations on one queue of a family that shares the `next` field. -/

section Family

variable {ι : Type} [DecidableEq ι] {next : κ → Option κ} {queue : ι → Option κ}
  {nodes : ι → List κ}

omit [DecidableEq κ] [Fintype κ] in
private theorem some_ne_of_not_mem {x : κ} {xs : List κ} (hx : x ∉ xs) :
    ∀ y ∈ xs, some y ≠ some x := by
  intro y hy heq
  exact hx (Option.some.inj heq ▸ hy)

theorem queueAppend_present {queue : Option κ} {nodes : List κ} {x : κ}
    (h : Chain next queue nodes) (hx : x ∈ nodes) : queueAppend next queue x = .ok (queue, next) := by
  obtain ⟨xs, ys, rfl⟩ := append_of_mem hx
  obtain ⟨hfind, hfollow⟩ := find_present h
  simp only [queueAppend, hfind, ok_bind, hfollow]

theorem queueAppend_spec (h : Threaded next queue nodes) (i : ι) (x : κ)
    (hx : ∀ j, x ∈ nodes j → j = i) :
    ∃ head next', queueAppend next (queue i) x = .ok (head, next') ∧
      Threaded next' (update queue i head)
        (update nodes i (appendAbsent (nodes i) x)) ∧
      ∀ y, y ∉ nodes i → y ≠ x → next' y = next y := by
  rw [appendAbsent]
  by_cases hmem : x ∈ nodes i
  · refine ⟨_, _, queueAppend_present (h.chain i) hmem, ?_, fun _ _ _ => rfl⟩
    simpa [hmem] using h
  · obtain ⟨hfind, hfollow⟩ := find_absent (h.chain i) (some_ne_of_not_mem hmem)
    simp only [queueAppend, hfind, ok_bind, hfollow, if_neg hmem]
    refine ⟨_, _, rfl, h.append ?_, ?_⟩
    · intro j hj
      obtain rfl := hx j hj
      exact hmem hj
    · intro y hy hne
      rw [update_of_ne hne, store_frame _ _ _ _ hy]

theorem vcpuQueueAppend_eq {queue : Option κ} {nodes : List κ} (h : Chain next queue nodes)
    (x : κ) : vcpuQueueAppend next queue x = queueAppend next queue x := by
  unfold vcpuQueueAppend queueAppend
  by_cases hmem : x ∈ nodes
  · obtain ⟨xs, ys, rfl⟩ := append_of_mem hmem
    obtain ⟨hfind, hfollow⟩ := find_present h
    simp only [hfind, ok_bind, hfollow]
  · obtain ⟨hfind, hfollow⟩ := find_absent h (some_ne_of_not_mem hmem)
    simp only [hfind, ok_bind, hfollow, store_update next queue (some x) hmem]

omit [Fintype κ] in
theorem queueRemoveHead_spec (h : Threaded next queue nodes) (i : ι) :
    (queueRemoveHead next (queue i)).1 = (nodes i).head? ∧
      Threaded next (update queue i (queueRemoveHead next (queue i)).2)
        (update nodes i (nodes i).tail) := by
  have hchain := h.chain i
  cases hi : nodes i with
  | nil =>
    rw [hi, chain_nil] at hchain
    rw [hchain]
    refine ⟨rfl, ?_⟩
    have hnone : (queueRemoveHead next none).2 = queue i := hchain.symm
    rw [hnone, tail_nil, ← hi, update_eq_self, update_eq_self]
    exact h
  | cons x xs =>
    rw [hi] at hchain
    rw [hchain.1]
    have hfirst : nodes i = [] ++ x :: xs := hi
    exact ⟨rfl, h.unlink hfirst⟩

theorem vcpuInRunqueue_spec {queue : Option κ} {nodes : List κ} (h : Chain next queue nodes)
    (task : Option κ) :
    vcpuInRunqueue next queue task = .ok (decide (∀ t, task = some t → t ∈ nodes)) := by
  unfold vcpuInRunqueue
  cases task with
  | none =>
    obtain ⟨hfind, hfollow⟩ := find_absent (x := none) h (fun y _ => Option.some_ne_none y)
    simp [hfind, ok_bind, hfollow]
  | some t =>
    by_cases hmem : t ∈ nodes
    · obtain ⟨xs, ys, rfl⟩ := append_of_mem hmem
      obtain ⟨hfind, hfollow⟩ := find_present h
      simp [hfind, ok_bind, hfollow]
    · obtain ⟨hfind, hfollow⟩ := find_absent h (some_ne_of_not_mem hmem)
      simp [hfind, ok_bind, hfollow, hmem]

theorem vcpuRemoveFromRunqueue_spec (h : Threaded next queue nodes) (i : ι) {t : κ}
    (ht : t ∈ nodes i) :
    ∃ head next', vcpuRemoveFromRunqueue next (queue i) (some t) = .ok (head, next') ∧
      Threaded next' (update queue i head)
        (update nodes i ((nodes i).erase t)) ∧
      ∀ y, y ∉ nodes i → next' y = next y := by
  obtain ⟨xs, ys, hi⟩ := append_of_mem ht
  have hxs : t ∉ xs := by
    have hnodup := (h.chain i).nodup
    rw [hi, nodup_append] at hnodup
    exact fun hmem => hnodup.2.2 t hmem t mem_cons_self rfl
  obtain ⟨hfind, hfollow⟩ := find_present (hi ▸ h.chain i)
  unfold vcpuRemoveFromRunqueue
  simp only [hfind, ok_bind, hfollow]
  refine ⟨_, _, rfl, ?_, ?_⟩
  · rw [hi, erase_append_right _ hxs, erase_cons_head]
    exact h.unlink hi
  · intro y hy
    apply store_frame
    exact fun hmem => hy (hi ▸ mem_append_left _ hmem)

theorem vcpuRemoveFromRunqueue_none {queue : Option κ} {nodes : List κ}
    (h : Chain next queue nodes) :
    vcpuRemoveFromRunqueue next queue none = .ok (queue, next) := by
  obtain ⟨hfind, hfollow⟩ := find_absent (x := none) h (fun y _ => Option.some_ne_none y)
  unfold vcpuRemoveFromRunqueue
  simp only [hfind, ok_bind, hfollow]

end Family

end Quest.Sched.Queue
