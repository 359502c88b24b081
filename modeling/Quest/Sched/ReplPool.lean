import Quest.Basic
import Quest.Lib.LinkedList
import Quest.Sched.Ledger

/-! The replenishment queue of a Main VCPU (`repl_queue` of `sched/vcpu.h`): a pool of `MAX_REPL`
entries, those in use linked in a list and the others marked by `t = 0`. -/
namespace Quest.Sched.ReplPool

open Quest.Lib.LinkedList List Function
open Quest.Sched.Ledger (Entry)

abbrev maxRepl : Nat := 32

/-- A `replenishment *` is the index of the pool entry it points to. -/
abbrev Slot := Fin maxRepl

structure Replenishment where
  t : Nat
  b : Nat
  next : Option Slot
  deriving DecidableEq

/-- `dropped`, which the source does not keep, counts the calls of `repl_queue_add` that found the
queue full. -/
structure ReplQueue where
  array : Slot → Replenishment
  head : Option Slot
  size : Nat
  dropped : Nat

def ReplQueue.next (Q : ReplQueue) (i : Slot) : Option Slot := (Q.array i).next

def ReplQueue.zeroed : ReplQueue := ⟨fun _ => ⟨0, 0, none⟩, none, 0, 0⟩

def ReplQueue.write (Q : ReplQueue) (link value : Option Slot) : ReplQueue :=
  match link with
  | none => { Q with head := value }
  | some i => { Q with array := update Q.array i { Q.array i with next := value } }

def ReplQueue.setEntry (Q : ReplQueue) (i : Slot) (t b : Nat) : ReplQueue :=
  { Q with array := update Q.array i { Q.array i with t := t, b := b } }

def replQueuePop (Q : ReplQueue) : ReplQueue :=
  match Q.head with
  | none => Q
  | some h =>
      { Q with
        array := update Q.array h ⟨0, 0, none⟩
        head := (Q.array h).next
        size := Q.size - 1 }

def freeEntry (Q : ReplQueue) : Option Slot :=
  (List.finRange maxRepl).find? fun i => (Q.array i).t == 0

def ReplQueue.insertAt (Q : ReplQueue) (r : Slot) (rq : Option Slot) (t b : Nat) : ReplQueue :=
  let Q := Q.write (some r) (follow Q.next Q.head rq)
  let Q := (Q.write rq (some r)).setEntry r t b
  { Q with size := Q.size + 1 }

def replQueueAdd (Q : ReplQueue) (b t : Nat) : Except Fault ReplQueue :=
  if Q.size < maxRepl then
    match freeEntry Q with
    | none => .error (.panic "Q->size < MAX_REPL but no free entry")
    | some r => do
        -- find insertion point
        let rq ← terminated
          (seek Q.next Q.head (fun i => !decide ((Q.array i).t < t)) (maxRepl + 1) none)
        -- insert
        .ok (Q.insertAt r rq t b)
  else .ok { Q with dropped := Q.dropped + 1 }

def ReplQueue.entry (Q : ReplQueue) (i : Slot) : Entry := ⟨(Q.array i).t, (Q.array i).b⟩

/-- The list from `head` visits `slots`, and these are exactly the entries in
use. -/
structure ReplQueue.Lists (Q : ReplQueue) (slots : List Slot) : Prop where
  chain : Chain Q.next Q.head slots
  size : Q.size = slots.length
  live : ∀ i, (Q.array i).t ≠ 0 ↔ i ∈ slots

def ReplQueue.Represents (Q : ReplQueue) (es : List Entry) : Prop :=
  ∃ slots, Q.Lists slots ∧ slots.map Q.entry = es

def ReplQueue.listFrom (Q : ReplQueue) : Nat → Option Slot → List Entry
  | fuel + 1, some r => Q.entry r :: Q.listFrom fuel (Q.array r).next
  | _, _ => []

def ReplQueue.toList (Q : ReplQueue) : List Entry := Q.listFrom maxRepl Q.head

variable {slots : List Slot}

theorem listFrom_eq (Q : ReplQueue) {r : Option Slot} (h : Chain Q.next r slots) {fuel : Nat}
    (hfuel : slots.length ≤ fuel) : Q.listFrom fuel r = slots.map Q.entry := by
  induction slots generalizing r fuel with
  | nil =>
    subst h
    cases fuel <;> rfl
  | cons i slots ih =>
    obtain ⟨rfl, hrest⟩ := (chain_cons _ _ _ _).mp h
    cases fuel with
    | zero => simp at hfuel
    | succ fuel =>
      rw [ReplQueue.listFrom, map_cons]
      congr 1
      exact ih hrest (by simpa using hfuel)

variable {Q : ReplQueue} {es : List Entry}

theorem ReplQueue.Represents.toList_eq (h : Q.Represents es) : Q.toList = es := by
  obtain ⟨slots, hlists, rfl⟩ := h
  exact listFrom_eq Q hlists.chain hlists.chain.length_le_fin

theorem ReplQueue.Represents.size_eq (h : Q.Represents es) : Q.size = es.length := by
  obtain ⟨slots, hlists, rfl⟩ := h
  rw [length_map, hlists.size]

theorem zeroed_represents : ReplQueue.zeroed.Represents [] :=
  ⟨[], ⟨rfl, rfl, by simp [ReplQueue.zeroed]⟩, rfl⟩

section

variable (Q : ReplQueue)

@[simp] theorem write_next_eq_store (link value : Option Slot) :
    (Q.write link value).next = (store Q.next Q.head link value).2 := by
  cases link with
  | none => rfl
  | some i =>
    funext j
    by_cases hj : j = i
    · subst hj
      simp [ReplQueue.write, ReplQueue.next, store]
    · simp [ReplQueue.write, ReplQueue.next, store, hj]

@[simp] theorem write_head_eq_store (link value : Option Slot) :
    (Q.write link value).head = (store Q.next Q.head link value).1 := by
  cases link <;> rfl

@[simp] theorem write_entry (link value : Option Slot) :
    (Q.write link value).entry = Q.entry := by
  cases link with
  | none => rfl
  | some i =>
    funext j
    by_cases hj : j = i
    · subst hj
      simp [ReplQueue.write, ReplQueue.entry]
    · simp [ReplQueue.write, ReplQueue.entry, hj]

@[simp] theorem write_size (link value : Option Slot) :
    (Q.write link value).size = Q.size := by
  cases link <;> rfl

@[simp] theorem write_dropped (link value : Option Slot) :
    (Q.write link value).dropped = Q.dropped := by
  cases link <;> rfl

@[simp] theorem setEntry_next (i : Slot) (t b : Nat) :
    (Q.setEntry i t b).next = Q.next := by
  funext j
  by_cases hj : j = i
  · subst hj
    simp [ReplQueue.setEntry, ReplQueue.next]
  · simp [ReplQueue.setEntry, ReplQueue.next, hj]

theorem setEntry_entry (i : Slot) (t b : Nat) :
    (Q.setEntry i t b).entry = update Q.entry i ⟨t, b⟩ := by
  funext j
  by_cases hj : j = i
  · subst hj
    simp [ReplQueue.setEntry, ReplQueue.entry]
  · simp [ReplQueue.setEntry, ReplQueue.entry, hj]

@[simp] theorem setEntry_head (i : Slot) (t b : Nat) :
    (Q.setEntry i t b).head = Q.head := rfl

@[simp] theorem setEntry_size (i : Slot) (t b : Nat) :
    (Q.setEntry i t b).size = Q.size := rfl

@[simp] theorem setEntry_dropped (i : Slot) (t b : Nat) :
    (Q.setEntry i t b).dropped = Q.dropped := rfl

theorem ReplQueue.live_iff (i : Slot) :
    (Q.array i).t ≠ 0 ↔ (Q.entry i).t ≠ 0 := Iff.rfl

end

/-! Each operation on the pool, as an operation on the list. -/

theorem replQueuePop_represents {r : Entry} (h : Q.Represents (r :: es)) :
    (replQueuePop Q).Represents es ∧ (replQueuePop Q).dropped = Q.dropped := by
  obtain ⟨slots, hlists, hmap⟩ := h
  obtain ⟨i, rest, rfl, -, rfl⟩ := map_eq_cons_iff.mp hmap
  have hnodup := hlists.chain.nodup
  obtain ⟨hhead, hrest⟩ := (chain_cons _ _ _ _).mp hlists.chain
  have hother : ∀ j ∈ rest, j ≠ i := fun j hj heq =>
    (nodup_cons.mp hnodup).1 (heq ▸ hj)
  have hpop : replQueuePop Q =
      { Q with
        array := update Q.array i ⟨0, 0, none⟩
        head := (Q.array i).next
        size := Q.size - 1 } := by
    rw [replQueuePop, hhead]
  rw [hpop]
  refine ⟨⟨rest, ⟨?_, ?_, ?_⟩, ?_⟩, rfl⟩
  · refine hrest.congr fun j hj => ?_
    simp [ReplQueue.next, hother j hj]
  · simp [hlists.size]
  · intro j
    by_cases hj : j = i
    · subst hj
      simp [(nodup_cons.mp hnodup).1]
    · simp [hj, hlists.live j]
  · refine map_congr_left fun j hj => ?_
    simp [ReplQueue.entry, hother j hj]

theorem freeEntry_of_lists (h : Q.Lists slots) (hroom : slots.length < maxRepl)
    : ∃ r, freeEntry Q = some r ∧ r ∉ slots := by
  cases hfree : freeEntry Q with
  | some r =>
    refine ⟨r, rfl, fun hmem => ?_⟩
    have hzero := find?_some hfree
    exact (h.live r).mpr hmem (by simpa using hzero)
  | none =>
    have hall : ∀ i : Slot, i ∈ slots := by
      intro i
      have hi := find?_eq_none.mp hfree i (mem_finRange i)
      exact (h.live i).mp (by simpa using hi)
    have hcard : maxRepl ≤ slots.length := by
      have hsub : (finRange maxRepl).Subperm slots :=
        (nodup_finRange maxRepl).subperm fun i _ => hall i
      simpa using hsub.length_le
    omega

theorem insertAt_entry (Q : ReplQueue) (r : Slot) (rq : Option Slot) (t b : Nat) :
    (Q.insertAt r rq t b).entry = update Q.entry r ⟨t, b⟩ := by
  change (((Q.write _ _).write _ _).setEntry r t b).entry = _
  rw [setEntry_entry, write_entry, write_entry]

theorem insertAt_lists {before after : List Slot} {r : Slot} {t : Nat} (b : Nat)
    (h : Q.Lists (before ++ after)) (hr : r ∉ before ++ after) (ht : 0 < t) :
    (Q.insertAt r (linkAfter none before) t b).Lists (before ++ r :: after) where
  chain := by
    change Chain (((Q.write _ _).write _ _).setEntry r t b).next
      (((Q.write _ _).write _ _).setEntry r t b).head _
    simp only [setEntry_next, setEntry_head, write_next_eq_store, write_head_eq_store]
    exact h.chain.insert hr
  size := by
    change (((Q.write _ _).write _ _).setEntry r t b).size + 1 = _
    rw [setEntry_size, write_size, write_size, h.size]
    simp only [length_append, length_cons]
    omega
  live i := by
    rw [ReplQueue.live_iff, insertAt_entry]
    by_cases hi : i = r
    · subst hi
      simp only [update_self, mem_append, mem_cons, true_or, or_true, iff_true]
      omega
    · rw [update_of_ne hi, ← ReplQueue.live_iff, h.live]
      simp [hi]

theorem replQueueAdd_represents (b t : Nat) (h : Q.Represents es) (hroom : es.length < maxRepl)
    (ht : 0 < t) : ∃ Q', replQueueAdd Q b t = .ok Q' ∧ Q'.Represents (Ledger.insert ⟨t, b⟩ es) ∧
      Q'.dropped = Q.dropped := by
  obtain ⟨slots, hlists, rfl⟩ := h
  rw [length_map] at hroom
  obtain ⟨r, hfree, hr⟩ := freeEntry_of_lists hlists hroom
  -- the slots before and after the insertion point
  let before := slots.takeWhile fun i => !!decide ((Q.array i).t < t)
  let after := slots.dropWhile fun i => !!decide ((Q.array i).t < t)
  have hsplit : slots = before ++ after := takeWhile_append_dropWhile.symm
  have hseek : seek Q.next Q.head (fun i => !decide ((Q.array i).t < t)) (maxRepl + 1) none =
      some (linkAfter none before) :=
    seek_eq _ _ _ _ none slots hlists.chain (by omega)
  have hother : ∀ i ∈ slots, (Q.insertAt r (linkAfter none before) t b).entry i = Q.entry i := by
    intro i hi
    rw [insertAt_entry]
    refine update_of_ne ?_ _ _
    rintro rfl
    exact hr hi
  refine ⟨Q.insertAt r (linkAfter none before) t b, ?_, ⟨before ++ r :: after,
    insertAt_lists b (hsplit ▸ hlists) (hsplit ▸ hr) ht, ?_⟩, ?_⟩
  · rw [replQueueAdd, if_pos (by rw [hlists.size]; exact hroom), hfree]
    simp only [hseek, terminated_some]
    rfl
  · have hstop : (fun s => decide ¬Entry.Before ⟨t, b⟩ s) ∘ Q.entry =
        fun i => !!decide ((Q.array i).t < t) := by
      funext i
      simp only [comp_apply, ReplQueue.entry, Entry.Before, not_le, Bool.not_not]
      exact decide_eq_decide.mpr Iff.rfl
    rw [Ledger.insert, orderedInsert_eq_take_drop, takeWhile_map, dropWhile_map,
      map_append, map_cons, hstop, insertAt_entry, update_self,
      ← insertAt_entry]
    congr 1
    · exact map_congr_left fun i hi => hother i (hsplit ▸ mem_append_left _ hi)
    · congr 1
      exact map_congr_left fun i hi => hother i (hsplit ▸ mem_append_right _ hi)
  · change (((Q.write _ _).write _ _).setEntry r t b).dropped = _
    rw [setEntry_dropped, write_dropped, write_dropped]

theorem ReplQueue.Represents.head {r : Entry} (h : Q.Represents (r :: es)) :
    ∃ i, Q.head = some i ∧ (Q.array i).t = r.t ∧ (Q.array i).b = r.b ∧
      ∀ s rest, es = s :: rest →
        ∃ j, (Q.array i).next = some j ∧ (Q.array j).t = s.t ∧ (Q.array j).b = s.b := by
  obtain ⟨slots, hlists, hmap⟩ := h
  obtain ⟨i, tail, rfl, rfl, rfl⟩ := map_eq_cons_iff.mp hmap
  obtain ⟨hhead, htail⟩ := (chain_cons _ _ _ _).mp hlists.chain
  refine ⟨i, hhead, rfl, rfl, ?_⟩
  intro s rest hes
  obtain ⟨j, tail, rfl, rfl, rfl⟩ := map_eq_cons_iff.mp hes
  exact ⟨j, htail.1, rfl, rfl⟩

theorem ReplQueue.Represents.head_nil (h : Q.Represents []) : Q.head = none := by
  obtain ⟨slots, hlists, hmap⟩ := h
  rw [map_eq_nil_iff] at hmap
  subst hmap
  exact hlists.chain

theorem setEntry_represents {r : Entry} {i : Slot} {t : Nat} (b : Nat) (h : Q.Represents (r :: es))
    (hi : Q.head = some i) (ht : 0 < t) : (Q.setEntry i t b).Represents (⟨t, b⟩ :: es) := by
  obtain ⟨slots, hlists, hmap⟩ := h
  obtain ⟨j, tail, rfl, -, rfl⟩ := map_eq_cons_iff.mp hmap
  obtain ⟨hhead, -⟩ := (chain_cons _ _ _ _).mp hlists.chain
  obtain rfl : i = j := Option.some.inj (hi.symm.trans hhead)
  refine ⟨i :: tail, ⟨?_, ?_, ?_⟩, ?_⟩
  · rw [setEntry_next, setEntry_head]
    exact hlists.chain
  · exact hlists.size
  · intro j
    rw [ReplQueue.live_iff, setEntry_entry]
    by_cases hj : j = i
    · subst hj
      simp only [update_self, mem_cons, true_or, iff_true]
      omega
    · rw [update_of_ne hj, ← ReplQueue.live_iff, hlists.live]
  · rw [map_cons, setEntry_entry, update_self]
    congr 1
    refine map_congr_left fun j hj => update_of_ne ?_ _ _
    rintro rfl
    exact (nodup_cons.mp hlists.chain.nodup).1 hj

end Quest.Sched.ReplPool
