import Mathlib

/-! Singly linked lists threaded through a `next` field.  Nodes and null pointers are an arbitrary
type and `Option`. -/
namespace Quest.Lib.LinkedList

open List Function

variable {κ : Type*}

/-- Following `next` from `head` visits `nodes` in order and then holds the
pointer `stop`. -/
def Seg (next : κ → Option κ) : Option κ → List κ → Option κ → Prop
  | head, [], stop => head = stop
  | head, x :: xs, stop => head = some x ∧ Seg next (next x) xs stop

def Chain (next : κ → Option κ) (head : Option κ) (nodes : List κ) : Prop :=
  Seg next head nodes none

instance decidableSeg [DecidableEq κ] (next : κ → Option κ) :
    (head : Option κ) → (nodes : List κ) → (stop : Option κ) → Decidable (Seg next head nodes stop)
  | head, [], stop => inferInstanceAs (Decidable (head = stop))
  | head, x :: xs, stop =>
    have := decidableSeg next (next x) xs stop
    inferInstanceAs (Decidable (head = some x ∧ Seg next (next x) xs stop))

instance [DecidableEq κ] (next : κ → Option κ) (head : Option κ) (nodes : List κ) :
    Decidable (Chain next head nodes) := decidableSeg next head nodes none

section

variable (next : κ → Option κ)

@[simp] theorem seg_nil (head stop : Option κ) :
    Seg next head [] stop ↔ head = stop := Iff.rfl

@[simp] theorem seg_cons (head stop : Option κ) (x : κ) (xs : List κ) :
    Seg next head (x :: xs) stop ↔ head = some x ∧ Seg next (next x) xs stop := Iff.rfl

@[simp] theorem chain_nil (head : Option κ) :
    Chain next head [] ↔ head = none := Iff.rfl

@[simp] theorem chain_cons (head : Option κ) (x : κ) (xs : List κ) :
    Chain next head (x :: xs) ↔ head = some x ∧ Chain next (next x) xs := Iff.rfl

theorem seg_append (head stop : Option κ) (xs ys : List κ) :
    Seg next head (xs ++ ys) stop ↔ ∃ mid, Seg next head xs mid ∧ Seg next mid ys stop := by
  induction xs generalizing head with
  | nil => simp
  | cons x xs ih =>
    simp only [cons_append, seg_cons, ih]
    constructor
    · rintro ⟨hhead, mid, hxs, hys⟩
      exact ⟨mid, ⟨hhead, hxs⟩, hys⟩
    · rintro ⟨mid, ⟨hhead, hxs⟩, hys⟩
      exact ⟨hhead, mid, hxs, hys⟩

end

variable {next next' : κ → Option κ} {head : Option κ} {nodes : List κ}

theorem Seg.congr {stop : Option κ} (h : Seg next head nodes stop)
    (hagree : ∀ x ∈ nodes, next' x = next x) : Seg next' head nodes stop := by
  induction nodes generalizing head with
  | nil => exact h
  | cons x xs ih =>
    obtain ⟨hhead, hxs⟩ := h
    refine ⟨hhead, ?_⟩
    rw [hagree x (by simp)]
    exact ih hxs fun y hy => hagree y (by simp [hy])

theorem Chain.congr (h : Chain next head nodes) (hagree : ∀ x ∈ nodes, next' x = next x) :
    Chain next' head nodes := Seg.congr h hagree

variable {xs ys : List κ}

theorem Chain.unique (hxs : Chain next head xs) (hys : Chain next head ys) : xs = ys := by
  induction xs generalizing head ys with
  | nil =>
    cases ys with
    | nil => rfl
    | cons y ys =>
      rw [chain_nil] at hxs
      simp [hxs] at hys
  | cons x xs ih =>
    obtain ⟨hhead, hxs⟩ := hxs
    cases ys with
    | nil =>
      rw [chain_nil, hhead] at hys
      cases hys
    | cons y ys =>
      obtain ⟨hhead', hys⟩ := hys
      have hxy : x = y := Option.some.inj (hhead.symm.trans hhead')
      subst hxy
      rw [ih hxs hys]

theorem Chain.of_mem {x : κ} (h : Chain next head (xs ++ x :: ys)) : Chain next (next x) ys := by
  obtain ⟨mid, _, hmid⟩ := (seg_append next head none xs (x :: ys)).mp h
  exact hmid.2

/-- A node that is visited twice would be followed by the same nodes, of two different numbers. -/
theorem Chain.nodup (h : Chain next head nodes) : nodes.Nodup := by
  induction nodes generalizing head with
  | nil => exact nodup_nil
  | cons x xs ih =>
    obtain ⟨_, hxs⟩ := (chain_cons next head x xs).mp h
    refine nodup_cons.mpr ⟨fun hmem => ?_, ih hxs⟩
    obtain ⟨as, bs, rfl⟩ := append_of_mem hmem
    have hsame := hxs.unique hxs.of_mem
    have hlen := congrArg length hsame
    simp only [length_append, length_cons] at hlen
    omega

theorem Chain.head_eq (h : Chain next head nodes) : head = nodes.head? := by
  cases nodes with
  | nil => exact h
  | cons x xs => exact h.1

theorem Chain.head_isNone (h : Chain next head nodes) : head = none ↔ nodes = [] := by
  rw [h.head_eq, head?_eq_none_iff]

/-! A link is the address of a pointer: `none` is the head variable and `some x` the `next` field
of `x`. -/

def follow (next : κ → Option κ) (head : Option κ) : Option κ → Option κ
  | none => head
  | some x => next x

def store [DecidableEq κ] (next : κ → Option κ) (head : Option κ) (link value : Option κ) :
    Option κ × (κ → Option κ) :=
  match link with
  | none => (value, next)
  | some x => (head, Function.update next x value)

/-- `while (*link && !stop (*link)) link = &(*link)->next`.  The result is `none`
when the fuel ends before the loop does. -/
def seek (next : κ → Option κ) (head : Option κ) (stop : κ → Bool) :
    Nat → Option κ → Option (Option κ)
  | 0, _ => none
  | fuel + 1, link =>
      match follow next head link with
      | none => some link
      | some x => if stop x then some link else seek next head stop fuel (some x)

def linkAfter (link : Option κ) (xs : List κ) : Option κ :=
  xs.getLast?.or link

@[simp] theorem linkAfter_nil (link : Option κ) : linkAfter link [] = link := rfl

@[simp] theorem linkAfter_cons (link : Option κ) (x : κ) (xs : List κ) :
    linkAfter link (x :: xs) = linkAfter (some x) xs := by
  cases xs with
  | nil => rfl
  | cons y ys => simp [linkAfter, getLast?_cons]

theorem seek_eq (next : κ → Option κ) (head : Option κ) (stop : κ → Bool) (fuel : Nat)
    (link : Option κ) (nodes : List κ) (h : Chain next (follow next head link) nodes)
    (hfuel : nodes.length < fuel) :
    seek next head stop fuel link =
      some (linkAfter link (nodes.takeWhile fun x => !stop x)) := by
  induction nodes generalizing link fuel with
  | nil =>
    obtain ⟨fuel, rfl⟩ : ∃ n, fuel = n + 1 := ⟨fuel - 1, by simp at hfuel; omega⟩
    rw [chain_nil] at h
    simp [seek, h]
  | cons x xs ih =>
    obtain ⟨fuel, rfl⟩ : ∃ n, fuel = n + 1 := ⟨fuel - 1, by simp at hfuel; omega⟩
    obtain ⟨hx, hxs⟩ := h
    rw [seek, hx]
    cases hstop : stop x with
    | true => simp [hstop]
    | false =>
      have hrest := ih fuel (some x) hxs (by simp at hfuel; omega)
      simp [hstop, hrest]

theorem follow_linkAfter (link : Option κ) (h : Chain next (follow next head link) (xs ++ ys)) :
    Chain next (follow next head (linkAfter link xs)) ys := by
  induction xs generalizing link with
  | nil => exact h
  | cons x xs ih =>
    rw [linkAfter_cons]
    exact ih (some x) h.2

def nodesFrom (next : κ → Option κ) : Nat → Option κ → List κ
  | fuel + 1, some x => x :: nodesFrom next fuel (next x)
  | _, _ => []

theorem Chain.nodesFrom_eq (h : Chain next head nodes) {fuel : Nat} (hfuel : nodes.length ≤ fuel) :
    nodesFrom next fuel head = nodes := by
  induction nodes generalizing head fuel with
  | nil =>
    rw [h]
    cases fuel <;> rfl
  | cons x xs ih =>
    obtain ⟨rfl, hxs⟩ := h
    obtain ⟨fuel, rfl⟩ : ∃ n, fuel = n + 1 := ⟨fuel - 1, by simp at hfuel; omega⟩
    rw [nodesFrom, ih hxs (by simpa using hfuel)]

def links (link : Option κ) : List κ → List (Option κ × κ)
  | [] => []
  | x :: xs => (link, x) :: links (some x) xs

theorem links_concat (link : Option κ) (xs : List κ) (x : κ) :
    links link (xs ++ [x]) = links link xs ++ [(linkAfter link xs, x)] := by
  induction xs generalizing link with
  | nil => rfl
  | cons y xs ih => rw [cons_append, links, ih, links, linkAfter_cons, cons_append]

/-- `for (ptr = &head; *ptr; ptr = &(*ptr)->next) body`.  `stuck` is the fault of running out of
fuel. -/
def forLinks {φ β : Type*} (stuck : φ) (next : κ → Option κ) (head : Option κ)
    (body : Option κ → κ → β → Except φ β) : Nat → Option κ → β → Except φ β
  | 0, _, _ => .error stuck
  | fuel + 1, ptr, acc =>
      match follow next head ptr with
      | none => .ok acc
      | some x => body ptr x acc >>= forLinks stuck next head body fuel (some x)

theorem forLinks_eq {φ β : Type*} (stuck : φ) (body : Option κ → κ → β → Except φ β) {fuel : Nat}
    {ptr : Option κ} (acc : β) (h : Chain next (follow next head ptr) nodes)
    (hfuel : nodes.length < fuel) : forLinks stuck next head body fuel ptr acc =
      (links ptr nodes).foldlM (fun acc x => body x.1 x.2 acc) acc := by
  induction nodes generalizing fuel ptr acc with
  | nil =>
    obtain ⟨fuel, rfl⟩ : ∃ n, fuel = n + 1 := ⟨fuel - 1, by simp at hfuel; omega⟩
    rw [chain_nil] at h
    rw [forLinks, h]
    rfl
  | cons x xs ih =>
    obtain ⟨fuel, rfl⟩ : ∃ n, fuel = n + 1 := ⟨fuel - 1, by simp at hfuel; omega⟩
    obtain ⟨hx, hxs⟩ := h
    rw [forLinks, hx, links, foldlM_cons]
    apply bind_congr
    exact fun acc => ih acc hxs (by simpa using hfuel)

theorem Chain.store_rest [DecidableEq κ] {value : Option κ} {zs : List κ}
    (h : Chain next head (xs ++ ys)) (hvalue : Chain next value zs) (hdisj : ∀ x ∈ xs, x ∉ zs) :
    Chain (store next head (linkAfter none xs) value).2
      (store next head (linkAfter none xs) value).1 (xs ++ zs) := by
  rcases eq_nil_or_concat xs with rfl | ⟨front, last, rfl⟩
  · exact hvalue
  · have hnodup := h.nodup
    obtain ⟨mid, hxs, _⟩ := (seg_append next head none (front.concat last) ys).mp h
    rw [concat_eq_append] at hxs hnodup hdisj ⊢
    obtain ⟨at_last, hfront, hat⟩ := (seg_append next head mid front [last]).mp hxs
    have hfront_ne : ∀ y ∈ front, y ≠ last := by
      intro y hy heq
      subst heq
      simp only [append_assoc, nodup_append] at hnodup
      exact hnodup.2.2 y hy y (by simp) rfl
    have hlink : linkAfter none (front ++ [last]) = some last := by simp [linkAfter]
    rw [hlink]
    refine (seg_append _ _ _ _ _).mpr ⟨value, (seg_append _ _ _ _ _).mpr
      ⟨at_last, ?_, hat.1, ?_⟩, ?_⟩
    · exact hfront.congr fun y hy => update_of_ne (hfront_ne y hy) _ _
    · simp [store]
    · refine Seg.congr hvalue fun y hy => update_of_ne ?_ _ _
      rintro rfl
      exact hdisj y (by simp) hy

theorem Chain.insert [DecidableEq κ] {r : κ} (h : Chain next head (xs ++ ys)) (hr : r ∉ xs ++ ys) :
    let next' := update next r (follow next head (linkAfter none xs))
    Chain (store next' head (linkAfter none xs) (some r)).2
      (store next' head (linkAfter none xs) (some r)).1 (xs ++ r :: ys) := by
  intro next'
  have hother : ∀ y ∈ xs ++ ys, next' y = next y := by
    intro y hy
    refine update_of_ne ?_ _ _
    rintro rfl
    exact hr hy
  have hold : Chain next' head (xs ++ ys) := h.congr hother
  have hrest : Chain next' (some r) (r :: ys) := by
    refine ⟨rfl, ?_⟩
    have hnext : next' r = follow next head (linkAfter none xs) := update_self _ _ _
    rw [hnext]
    exact (follow_linkAfter none h).congr fun y hy => hother y (by simp [hy])
  refine hold.store_rest hrest fun y hy hmem => ?_
  rcases mem_cons.mp hmem with rfl | hmem
  · exact hr (by simp [hy])
  · exact (nodup_append.mp h.nodup).2.2 y hy y hmem rfl

theorem store_frame [DecidableEq κ] (next : κ → Option κ) (head value : Option κ)
    (xs : List κ) {y : κ} (hy : y ∉ xs) :
    (store next head (linkAfter none xs) value).2 y = next y := by
  cases hlast : xs.getLast? with
  | none => simp [linkAfter, hlast, store]
  | some x =>
    have hxy : y ≠ x := by
      rintro rfl
      exact hy (mem_of_getLast? hlast)
    simp [linkAfter, hlast, store, update_of_ne hxy]

theorem store_congr [DecidableEq κ] (head link value : Option κ) {y : κ} (h : next' y = next y) :
    (store next' head link value).2 y = (store next head link value).2 y := by
  cases link with
  | none => exact h
  | some x =>
    by_cases hy : y = x
    · subst hy
      simp [store]
    · simp [store, hy, h]

theorem store_head [DecidableEq κ] (next next' : κ → Option κ) (head link value : Option κ) :
    (store next' head link value).1 = (store next head link value).1 := by
  cases link <;> rfl

theorem store_update [DecidableEq κ] (next : κ → Option κ) (head value : Option κ) {r : κ}
    (hr : r ∉ xs) (w : Option κ) : store (update next r w) head (linkAfter none xs) value =
      ((store next head (linkAfter none xs) value).1,
        update (store next head (linkAfter none xs) value).2 r w) := by
  cases hlast : xs.getLast? with
  | none => simp [linkAfter, hlast, store]
  | some x =>
    have hxr : x ≠ r := by
      rintro rfl
      exact hr (mem_of_getLast? hlast)
    simp [linkAfter, hlast, store, update_comm hxr]

theorem Chain.append [DecidableEq κ] {r : κ} (h : Chain next head xs) (hr : r ∉ xs) :
    Chain (update (store next head (linkAfter none xs) (some r)).2 r none)
      (store next head (linkAfter none xs) (some r)).1 (xs ++ [r]) := by
  rw [← append_nil xs] at h hr
  have hend : follow next head (linkAfter none xs) = none := follow_linkAfter none h
  have hins := h.insert hr
  rw [append_nil] at hr
  simp only [hend, store_update next head (some r) hr] at hins
  exact hins

theorem Chain.unlink [DecidableEq κ] {x : κ} (h : Chain next head (xs ++ x :: ys)) :
    Chain (store next head (linkAfter none xs) (next x)).2
      (store next head (linkAfter none xs) (next x)).1 (xs ++ ys) := by
  have hnodup := nodup_append.mp h.nodup
  apply h.store_rest h.of_mem
  intro y hy hmem
  exact hnodup.2.2 y hy y (mem_cons_of_mem x hmem) rfl

theorem Chain.length_le [Fintype κ] (h : Chain next head nodes) : nodes.length ≤ Fintype.card κ :=
  h.nodup.length_le_card

theorem Chain.length_le_fin {n : Nat} {next : Fin n → Option (Fin n)} {head : Option (Fin n)}
    {nodes : List (Fin n)} (h : Chain next head nodes) : nodes.length ≤ n := by
  simpa using h.length_le

/-! Several lists through one `next` field.  `ι` names the lists, and no node is on two of them. -/

section Threaded

variable {ι : Type*}

structure Threaded (next : κ → Option κ) (head : ι → Option κ) (nodes : ι → List κ) : Prop where
  chain : ∀ i, Chain next (head i) (nodes i)
  apart : ∀ i j x, x ∈ nodes i → x ∈ nodes j → i = j

variable {next next' : κ → Option κ} {head : ι → Option κ} {nodes : ι → List κ}

variable (h : Threaded next head nodes)
include h

theorem Threaded.congr
    (hagree : ∀ i, ∀ x ∈ nodes i, next' x = next x) : Threaded next' head nodes where
  chain i := (h.chain i).congr (hagree i)
  apart := h.apart

theorem Threaded.sum {ι' : Type*} {head' : ι' → Option κ} {nodes' : ι' → List κ}
    (h' : Threaded next head' nodes')
    (hapart : ∀ i j x, x ∈ nodes i → x ∉ nodes' j) :
    Threaded next (Sum.elim head head') (Sum.elim nodes nodes') where
  chain
    | .inl i => h.chain i
    | .inr j => h'.chain j
  apart
    | .inl i, .inl j, x, hi, hj => congrArg _ (h.apart i j x hi hj)
    | .inl i, .inr j, x, hi, hj => absurd hj (hapart i j x hi)
    | .inr i, .inl j, x, hi, hj => absurd hi (hapart j i x hj)
    | .inr i, .inr j, x, hi, hj => congrArg _ (h'.apart i j x hi hj)

/-- An operation that writes to the `next` field of no node of another list, and takes no node
from one, changes the list `i` only. -/
theorem Threaded.update [DecidableEq ι] {i : ι} {head' : Option κ}
    {xs : List κ} (hxs : Chain next' head' xs)
    (hframe : ∀ j, j ≠ i → ∀ y ∈ nodes j, next' y = next y)
    (hapart : ∀ x ∈ xs, ∀ j, j ≠ i → x ∉ nodes j) :
    Threaded next' (update head i head') (update nodes i xs) where
  chain j := by
    by_cases hj : j = i
    · subst hj
      simpa using hxs
    · rw [update_of_ne hj, update_of_ne hj]
      exact (h.chain j).congr (hframe j hj)
  apart j k x hjx hkx := by
    by_cases hj : j = i <;> by_cases hk : k = i
    · rw [hj, hk]
    · rw [hj, update_self] at hjx
      rw [update_of_ne hk] at hkx
      exact absurd hkx (hapart x hjx k hk)
    · rw [hk, update_self] at hkx
      rw [update_of_ne hj] at hjx
      exact absurd hjx (hapart x hkx j hj)
    · rw [update_of_ne hj] at hjx
      rw [update_of_ne hk] at hkx
      exact h.apart j k x hjx hkx

theorem Threaded.append [DecidableEq κ] [DecidableEq ι] {i : ι}
    {r : κ} (hr : ∀ j, r ∉ nodes j) :
    Threaded (Function.update (store next (head i) (linkAfter none (nodes i)) (some r)).2 r none)
      (Function.update head i (store next (head i) (linkAfter none (nodes i)) (some r)).1)
      (Function.update nodes i (nodes i ++ [r])) := by
  apply h.update ((h.chain i).append (hr i))
  · intro j hj y hy
    have hyr : y ≠ r := by
      rintro rfl
      exact hr j hy
    rw [update_of_ne hyr, store_frame]
    exact fun hmem => hj (h.apart j i y hy hmem)
  · intro x hx j hj hmem
    rcases mem_append.mp hx with hx | hx
    · exact hj (h.apart j i x hmem hx)
    · rw [mem_singleton] at hx
      exact hr j (hx ▸ hmem)

theorem Threaded.unlink [DecidableEq κ] [DecidableEq ι] {i : ι}
    {x : κ} {xs ys : List κ} (hi : nodes i = xs ++ x :: ys) :
    Threaded (store next (head i) (linkAfter none xs) (next x)).2
      (Function.update head i (store next (head i) (linkAfter none xs) (next x)).1)
      (Function.update nodes i (xs ++ ys)) := by
  have hsub : ∀ y ∈ xs ++ ys, y ∈ nodes i := by
    intro y hy
    rw [hi]
    rcases mem_append.mp hy with hy | hy
    · exact mem_append_left _ hy
    · exact mem_append_right _ (mem_cons_of_mem x hy)
  apply h.update (Chain.unlink (hi ▸ h.chain i))
  · intro j hj y hy
    apply store_frame
    exact fun hmem => hj (h.apart j i y hy (hsub y (mem_append_left _ hmem)))
  · exact fun y hy j hj hmem => hj (h.apart j i y hmem (hsub y hy))

end Threaded

end Quest.Lib.LinkedList
