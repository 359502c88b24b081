import Quest.Drivers.Uhci

/-! The chains of descriptors in the UHCI driver, `drivers/usb/uhci_hcd.c`. -/
namespace Quest.Drivers.Uhci

open Quest.Lib Function

abbrev tdPoolSize : Nat := 200

abbrev TdId := Fin tdPoolSize

/-- A `link_ptr` or `qe_ptr`: 0, `TERMINATE`, or a descriptor with the bit `DEPTH_FIRST`. -/
inductive Link where
  | zero
  | terminate
  | td (t : TdId) (depthFirst : Bool)
  deriving DecidableEq, Repr

def Link.target : Link → Option TdId
  | .td t _ => some t
  | _ => none

def Link.breadthFirst : Link → Link
  | .td t _ => .td t false
  | l => l

@[simp] theorem Link.target_breadthFirst (l : Link) : l.breadthFirst.target = l.target := by
  cases l <;> rfl

inductive Cell where
  | qe
  | link (t : TdId)

structure Queue where
  qe : Link
  link : TdId → Link

def Queue.get (q : Queue) : Cell → Link
  | .qe => q.qe
  | .link t => q.link t

def Queue.set (q : Queue) (l : Link) : Cell → Queue
  | .qe => { q with qe := l }
  | .link t => { q with link := update q.link t l }

def fixupTds (status : TdId → Nat) : Nat → Cell → Queue → Except Fault Queue
  | 0, _, _ => .error .diverges
  | n + 1, p, q =>
    match q.get p with
    | .td t _ =>
      if status t = 0 then fixupTds status n (.link t) (q.set (q.link t).breadthFirst p)
      else .ok q
    | _ => .ok q

/-- The descriptors that `check_tds` visits from a pointer on, if none of them ends the walk. -/
def visited (link : TdId → Link) : Nat → Option TdId → Except Fault (List TdId)
  | 0, _ => .error .diverges
  | _ + 1, none => .ok []
  | n + 1, some t => (t :: ·) <$> visited link n (link t).target

def freeTds : Nat → Option TdId → (TdId → Link) → Except Fault (TdId → Link)
  | 0, _, link => .ok link
  | _ + 1, none, _ => .error .outOfBounds
  | n + 1, some t, link =>
    if link t = .terminate then .ok (update link t .zero)
    else freeTds n (link t).target (update link t .zero)

def PointsAt (l : Link) (ts : List TdId) : Prop :=
  match ts with
  | [] => l = .terminate
  | t :: _ => l.target = some t

def Chained (link : TdId → Link) : List TdId → Prop
  | [] => True
  | t :: ts => PointsAt (link t) ts ∧ Chained link ts

/-- The first two descriptors are not both completed. -/
def Harmless (status : TdId → Nat) (ts : List TdId) : Prop :=
  ∀ t u rest, ts = t :: u :: rest → ¬(status t = 0 ∧ status u = 0)

variable {link link' : TdId → Link} {ts rest : List TdId} {t u v x y : TdId} {status : TdId → Nat}
  {n k : Nat} {q q' : Queue} {p : Cell}

theorem PointsAt.cons_eq {l : Link} (h : PointsAt l (t :: ts)) : ∃ d, l = .td t d := by
  cases l <;> simp_all [PointsAt, Link.target]

theorem Chained.drop (h : Chained link ts) (k : Nat) : Chained link (ts.drop k) := by
  induction ts generalizing k with
  | nil => simp [Chained]
  | cons t ts ih =>
    cases k with
    | zero => exact h
    | succ k => exact ih h.2 k

theorem Chained.congr (h : Chained link ts) (hagree : ∀ x ∈ ts, link' x = link x) :
    Chained link' ts := by
  induction ts with
  | nil => trivial
  | cons t ts ih =>
    obtain ⟨ht, hts⟩ := List.forall_mem_cons.mp hagree
    exact ⟨ht ▸ h.1, ih h.2 hts⟩

theorem PointsAt.target_eq {l : Link} (h : PointsAt l ts) : l.target = ts.head? := by
  cases ts with
  | nil => exact congrArg Link.target h
  | cons t ts => exact h

theorem Chained.visited (h : Chained link ts) (hn : ts.length < n) :
    visited link n ts.head? = .ok ts := by
  induction ts generalizing n with
  | nil =>
    cases n with
    | zero => omega
    | succ n => rfl
  | cons t ts ih =>
    cases n with
    | zero => omega
    | succ n =>
      rw [List.head?_cons, Uhci.visited, h.1.target_eq, ih h.2 (by simpa using hn)]
      rfl

theorem Chained.freeTds (h : Chained link ts) (hnodup : ts.Nodup) (hn : ts.length = n) :
    freeTds n ts.head? link = .ok fun t => if t ∈ ts then .zero else link t := by
  induction ts generalizing n link with
  | nil =>
    subst hn
    simp [Uhci.freeTds]
  | cons t ts ih =>
    subst hn
    obtain ⟨hpoint, hrest⟩ := h
    obtain ⟨ht, hnodup⟩ := List.nodup_cons.mp hnodup
    have hupdate (x : TdId) (hx : x ≠ t) : update link t .zero x = link x :=
      update_of_ne hx ..
    have hchained : Chained (update link t .zero) ts :=
      hrest.congr fun x hx => hupdate x (ne_of_mem_of_not_mem hx ht)
    have hres : (fun x => if x ∈ ts then Link.zero else update link t .zero x) =
        fun x => if x ∈ t :: ts then .zero else link x := by
      funext x
      by_cases hx : x = t
      · subst hx
        simp
      · simp [hx]
    rw [List.head?_cons, List.length_cons, Uhci.freeTds]
    cases ts with
    | nil =>
      rw [if_pos (show link t = .terminate from hpoint), ← hres]
      simp
    | cons u ts =>
      have hlink : link t ≠ .terminate := by
        intro heq
        rw [heq] at hpoint
        cases hpoint
      rw [if_neg hlink, show (link t).target = (u :: ts).head? from hpoint,
        ih hchained hnodup rfl, hres]

theorem fixupTds_qe (h : fixupTds status n (.link t) q = .ok q') : q'.qe = q.qe := by
  induction n generalizing t q with
  | zero => cases h
  | succ n ih =>
    rw [fixupTds] at h
    split at h
    · split at h
      · exact (ih h :)
      · cases h
        rfl
    · cases h
      rfl

theorem fixupTds_harmless (hqe : PointsAt q.qe rest) (hchain : Chained q.link rest)
    (hharm : Harmless status rest) (n : Nat) :
    ∃ l, fixupTds status (n + 2) .qe q = .ok ⟨l, q.link⟩ ∧
      PointsAt l (rest.dropWhile fun t => status t = 0) := by
  cases rest with
  | nil =>
    refine ⟨.terminate, ?_, rfl⟩
    obtain ⟨_, _⟩ := q
    cases hqe
    rfl
  | cons t ts =>
    obtain ⟨d, hd⟩ := hqe.cons_eq
    rw [fixupTds, Queue.get, hd, List.dropWhile_cons]
    dsimp only
    by_cases ht : status t = 0
    · rw [if_pos ht, if_pos (by simpa using ht), fixupTds]
      have hpoint : PointsAt (q.link t) ts := hchain.1
      refine ⟨(q.link t).breadthFirst, ?_, ?_⟩
      · cases ts with
        | nil => simp [Queue.get, Queue.set, show q.link t = .terminate from hpoint]
        | cons u ts =>
          obtain ⟨d', hd'⟩ := hpoint.cons_eq
          have hu : status u ≠ 0 := fun hu => hharm t u ts rfl ⟨ht, hu⟩
          simp [Queue.get, Queue.set, hd', hu]
      · cases ts with
        | nil => rw [show q.link t = .terminate from hpoint]; rfl
        | cons u ts =>
          have hu : status u ≠ 0 := fun hu => hharm t u ts rfl ⟨ht, hu⟩
          rw [List.dropWhile_cons, if_neg (by simpa using hu)]
          exact (Link.target_breadthFirst _).trans hpoint
    · rw [if_neg ht, if_neg (by simpa using ht)]
      refine ⟨q.qe, rfl, ?_⟩
      rw [hd]
      rfl

/-- The second round of `fixup_tds` writes into the first descriptor. -/
theorem fixupTds_harmful (hqe : PointsAt q.qe (t :: u :: rest))
    (hchain : Chained q.link (t :: u :: rest)) (ht : status t = 0) (hu : status u = 0)
    (hok : fixupTds status n .qe q = .ok q') :
    ∃ m d, fixupTds status m (.link u)
      ⟨.td u d, update q.link t (q.link u).breadthFirst⟩ = .ok q' := by
  obtain ⟨d, hd⟩ := hqe.cons_eq
  obtain ⟨d', hd'⟩ := hchain.1.cons_eq
  match n with
  | 0 => cases hok
  | 1 =>
    simp only [fixupTds, Queue.get, hd, if_pos ht] at hok
    cases hok
  | m + 2 =>
    refine ⟨m, false, ?_⟩
    simpa [fixupTds, Queue.get, Queue.set, hd, hd', ht, hu, Link.breadthFirst] using hok

structure Repaired (status : TdId → Nat) (ts : List TdId) (q q' : Queue) : Prop where
  head : PointsAt q'.qe (ts.dropWhile fun t => status t = 0)
  links : q'.link = q.link
  visits : visited q'.link (tdPoolSize + 1) ts.head? = .ok ts
  frees : freeTds ts.length ts.head? q'.link = .ok fun t => if t ∈ ts then .zero else q.link t

/-- With the controller behind the descriptors `done`, the queue is repaired if and only if the
next two descriptors are not both completed. -/
theorem queue_repaired_iff (status : TdId → Nat) (q : Queue) (done rest : List TdId)
    (hchain : Chained q.link (done ++ rest)) (hnodup : (done ++ rest).Nodup)
    (hqe : PointsAt q.qe rest) (hdone : ∀ t ∈ done, status t = 0) :
    (∃ fuel q', fixupTds status fuel .qe q = .ok q' ∧ Repaired status (done ++ rest) q q') ↔
      Harmless status rest := by
  have hrest : Chained q.link rest := by simpa using hchain.drop done.length
  have hdrop : (done ++ rest).dropWhile (fun t => status t = 0) =
      rest.dropWhile fun t => status t = 0 :=
    List.dropWhile_append_of_pos fun t ht => decide_eq_true (hdone t ht)
  constructor
  · rintro ⟨fuel, q', hok, hrepaired⟩ t u rest rfl ⟨ht, hu⟩
    obtain ⟨m, d, hm⟩ := fixupTds_harmful hqe hrest ht hu hok
    have hhead := hrepaired.head
    rw [hdrop, fixupTds_qe hm] at hhead
    -- the queue head is left at a completed descriptor
    cases hfirst : (t :: u :: rest).dropWhile fun t => status t = 0 with
    | nil =>
      rw [hfirst] at hhead
      cases hhead
    | cons v vs =>
      rw [hfirst] at hhead
      cases hhead
      have hnot := List.head?_dropWhile_not (fun t => decide (status t = 0)) (t :: u :: rest)
      rw [hfirst] at hnot
      simp [hu] at hnot
  · intro hharmless
    obtain ⟨l, hok, hl⟩ := fixupTds_harmless hqe hrest hharmless 0
    refine ⟨2, _, hok, hdrop ▸ hl, rfl, ?_, hchain.freeTds hnodup rfl⟩
    apply hchain.visited
    have := hnodup.length_le_card
    rw [Fintype.card_fin] at this
    omega

def threeTds : Queue where
  qe := .td 0 false
  link t := if t = 0 then .td 1 true else if t = 1 then .td 2 true else .terminate

theorem queue_repaired_iff_first_completed :
    ∃ fuel q', fixupTds (fun t => if t = 0 then 0 else 0x80) fuel .qe threeTds = .ok q' ∧
      Repaired (fun t => if t = 0 then 0 else 0x80) [0, 1, 2] threeTds q' := by
  refine (queue_repaired_iff _ threeTds [] [0, 1, 2] ?_ (by decide) rfl nofun).mpr ?_
  · exact ⟨rfl, rfl, rfl, trivial⟩
  · rintro _ _ _ ⟨⟩
    decide

/-- Two descriptors are completed: the queue head is left at the second, and the walk misses it. -/
theorem fixup_skips_second_td :
    ∃ q', fixupTds (fun t => if t = 2 then 0x80 else 0) 4 .qe threeTds = .ok q' ∧
      q'.qe = .td 1 false ∧ visited q'.link 4 (some 0) = .ok [0, 2] :=
  ⟨_, rfl, rfl, rfl⟩


end Quest.Drivers.Uhci
