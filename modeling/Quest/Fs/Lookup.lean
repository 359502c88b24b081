import Quest.Fs.Directory
import Quest.Lib.Split

/-! Path lookup on a volume with a well-formed directory tree. -/
namespace Quest.Fs.Iso9660

open Lib List

/-- The components of a path.  Runs of slashes count as one; behind a slash at the end there is
an empty component. -/
def components (pathname : Name) : List Name :=
  let parts := pathname.splitOn pathsep
  parts.dropLast.filter (· ≠ []) ++ [parts.getLastD []]

structure Tree (v : Volume) where
  entries : Extent → Option (List Entry)
  isDirectory : ∀ d es, entries d = some es → v.IsDirectory d es
  closed : ∀ d es, entries d = some es → ∀ e ∈ es, e.flagDir = true → (entries e.extent).isSome
  root : (entries v.root).isSome

variable {v : Volume}

def firstNamed (c : Name) (es : List Entry) : Option Entry :=
  es.find? fun e => decide (Named c e.identifier)

def Tree.lookup (t : Tree v) : List Entry → List Name → Option Entry
  | _, [] => none
  | es, [c] => firstNamed c es
  | es, c :: cs => do
      let e ← firstNamed c es
      if e.flagDir then t.lookup (← t.entries e.extent) cs else none

/-- The rest of `iso9660_open`, by the components of the path. -/
def walk (v : Volume) : Extent → List Name → Except Fault (Option Entry)
  | _, [] => .ok none
  | d, [c] => if c = [] then .ok none else searchDir v d c c.length
  | d, c :: cs => do
      match ← searchDir v d c c.length with
      | none => .ok none
      | some e => walk v e.extent cs

/-! `iso9660_open` takes the path apart into its components. -/

section Components

variable {c pathname behind : Name}

theorem components_single (hc : pathsep ∉ c) : components c = [c] := by
  simp [components, Split.splitOn_of_not_mem hc]

theorem components_append (hc : pathsep ∉ c) (behind : Name) :
    components (c ++ pathsep :: behind) = [c].filter (· ≠ []) ++ components behind := by
  have hne := splitOn_ne_nil pathsep behind
  simp only [components, Split.splitOn_append hc, dropLast_cons_of_ne_nil hne,
    getLastD_eq_getLast?, getLast?_cons_of_ne_nil hne, ← append_assoc,
    ← filter_append, singleton_append]

theorem components_cons_pathsep (pathname : Name) :
    components (pathsep :: pathname) = components pathname :=
  components_append (c := []) (by simp) pathname

theorem components_dropWhile (pathname : Name) :
    components (pathname.dropWhile (· = pathsep)) = components pathname := by
  induction pathname with
  | nil => rfl
  | cons x pathname ih =>
    by_cases hx : x = pathsep
    · rw [dropWhile_cons_of_pos (by simpa using hx), ih, hx, components_cons_pathsep]
    · rw [dropWhile_cons_of_neg (by simpa using hx)]

end Components

/-! The byte behind the component does not matter. -/

section Congr

variable {a a' b : Nat → UInt8} {aLen : Nat} (ha : ∀ j < aLen, a j = a' j)
include ha

theorem filenameCompareFrom_congr {bLen n i : Nat} (hi : i + n = min aLen bLen) :
    filenameCompareFrom a aLen b bLen n i = filenameCompareFrom a' aLen b bLen n i := by
  induction n generalizing i with
  | zero => rfl
  | succ n ih =>
    rw [filenameCompareFrom, filenameCompareFrom, ha i (by omega)]
    by_cases hlast : i + 1 < aLen
    · simp only [ha (i + 1) hlast, ih (by omega : i + 1 + n = _)]
    · -- the byte behind `a` is read, but both ways it goes to the same result
      obtain rfl : n = 0 := by omega
      obtain rfl : aLen = i + 1 := by omega
      by_cases hb : i + 1 = bLen <;> simp [filenameCompareFrom, hb]

theorem searchFrom_congr {numBytes n count secnum d : Nat} {page : Page} :
    searchFrom v numBytes a aLen n count secnum page d =
      searchFrom v numBytes a' aLen n count secnum page d := by
  induction n generalizing count secnum page d with
  | zero => rfl
  | succ n ih =>
    have hvisit : visit v numBytes a aLen n count = visit v numBytes a' aLen n count := by
      funext secnum page d
      rw [visit, visit, filenameCompare, filenameCompareFrom_congr ha (Nat.zero_add _), ih]
      rfl
    rw [searchFrom_succ, searchFrom_succ, hvisit]

end Congr

theorem searchDir_prefix {c pathname : Name} (d : Extent) (h : c <+: pathname) :
    searchDir v d pathname c.length = searchDir v d c c.length := by
  obtain ⟨behind, rfl⟩ := h
  apply searchFrom_congr
  intro j hj
  rw [getD_eq_getElem?_getD, getD_eq_getElem?_getD, getElem?_append_left hj]

theorem components_ne_nil (pathname : Name) : components pathname ≠ [] := by
  simp [components]

theorem walk_cons {d : Extent} {c : Name} {cs : List Name} (hcs : cs ≠ []) :
    walk v d (c :: cs) =
      searchDir v d c c.length >>= fun found =>
        match found with
        | none => .ok none
        | some e => walk v e.extent cs := by
  cases cs with
  | nil => exact absurd rfl hcs
  | cons c' cs => rfl

theorem first_component {start : Name} (hhead : start.head? ≠ some pathsep) :
    start.drop (start.takeWhile (· ≠ pathsep)).length = [] ∧
        components start = [start.takeWhile (· ≠ pathsep)] ∨
      ∃ behind, start.drop (start.takeWhile (· ≠ pathsep)).length = pathsep :: behind ∧
        start.takeWhile (· ≠ pathsep) ≠ [] ∧
        components start = start.takeWhile (· ≠ pathsep) :: components behind := by
  have hc := Split.not_mem_takeWhile pathsep start
  obtain ⟨hnot, hstart⟩ | ⟨behind, hstart⟩ := Split.takeWhile_cases pathsep start
  · rw [hstart]
    exact .inl ⟨drop_length, components_single hnot⟩
  · generalize start.takeWhile (· ≠ pathsep) = c at hc hstart ⊢
    subst hstart
    have hne : c ≠ [] := by
      rintro rfl
      exact hhead rfl
    refine .inr ⟨behind, drop_left, hne, ?_⟩
    rw [components_append hc, filter_cons_of_pos (by simpa using hne)]
    rfl

theorem openFrom_eq_walk {n : Nat} {d : Extent} {pathname : Name} (hn : pathname.length < n) :
    openFrom v n d pathname = walk v d (components pathname) := by
  induction n generalizing d pathname with
  | zero => exact absurd hn (Nat.not_lt_zero _)
  | succ n ih =>
    have hshort := (dropWhile_suffix (· = pathsep) (l := pathname)).length_le
    have hhead : (pathname.dropWhile (· = pathsep)).head? ≠ some pathsep := by
      intro hhead
      have hnot := head?_dropWhile_not (· = pathsep) pathname
      rw [hhead] at hnot
      simp at hnot
    rw [openFrom, parseFirstComponent, ← components_dropWhile]
    generalize pathname.dropWhile (· = pathsep) = start at hshort hhead ⊢
    have hsearch := searchDir_prefix (v := v) d (List.takeWhile_prefix (· ≠ pathsep) (l := start))
    dsimp only
    rw [hsearch]
    obtain ⟨hdrop, hcomps⟩ | ⟨behind, hdrop, hne, hcomps⟩ := first_component hhead
    · rw [hdrop, hcomps, walk]
      simp
    · have hlen : behind.length + 1 < start.length := by
        have := congrArg length hdrop
        have hpos := length_pos_iff.mpr hne
        rw [length_drop, length_cons] at this
        omega
      rw [hdrop, hcomps, walk_cons (components_ne_nil behind)]
      simp only [isEmpty_cons, Bool.false_eq_true, if_false]
      congr 1
      funext found
      cases found with
      | none => rfl
      | some e =>
        dsimp only
        rw [ih (by rw [length_cons]; omega), components_cons_pathsep]

theorem dropLast_components {c pathname : Name} (h : c ∈ (components pathname).dropLast) : c ≠ [] := by
  simp only [components, dropLast_concat, mem_filter] at h
  simpa using h.2

/-! What the search selects, and what has the name. -/

/-- No entry before the first one with the name has it with another extension. -/
def Distinct (c : Name) (es : List Entry) : Prop :=
  ∀ e ∈ es.takeWhile (fun e => ¬Named c e.identifier), ¬Confused c e.identifier

instance (c : Name) (es : List Entry) : Decidable (Distinct c es) := by
  unfold Distinct
  infer_instance

section Select

variable {c : Name} {e : Entry} {es : List Entry}

theorem firstNamed_cons :
    firstNamed c (e :: es) = if Named c e.identifier then some e else firstNamed c es := by
  split <;> simp_all [firstNamed]

theorem distinct_cons :
    Distinct c (e :: es) ↔
      Named c e.identifier ∨ ¬Confused c e.identifier ∧ Distinct c es := by
  rw [Distinct, takeWhile_cons]
  by_cases hnamed : Named c e.identifier
  · simp [hnamed]
  · simp [hnamed, Distinct]

theorem Distinct.firstAccepted (h : Distinct c es) (hc : c ≠ []) :
    firstAccepted c es = firstNamed c es := by
  induction es with
  | nil => rfl
  | cons e es ih =>
    rw [firstAccepted_cons, firstNamed_cons]
    obtain hnamed | ⟨hnot, hes⟩ := distinct_cons.mp h
    · rw [if_pos ((accepts_iff hc).mpr (.inl hnamed)), if_pos hnamed]
    · simp only [accepts_iff hc, hnot, or_false, ih hes]

theorem distinct_of_selected (hc : c ≠ [])
    (h : ∀ e, firstAccepted c es = some e → Named c e.identifier) : Distinct c es := by
  induction es with
  | nil => nofun
  | cons e es ih =>
    rw [distinct_cons]
    by_cases haccepts : Accepts c e.identifier
    · refine .inl (h e ?_)
      rw [firstAccepted_cons, if_pos haccepts]
    · refine .inr ⟨fun hconfused => haccepts ((accepts_iff hc).mpr (.inr hconfused)), ih ?_⟩
      intro e' he'
      refine h e' ?_
      rwa [firstAccepted_cons, if_neg haccepts]

theorem named_of_firstNamed (h : firstNamed c es = some e) : Named c e.identifier ∧ e ∈ es :=
  ⟨by simpa using find?_some h, mem_of_find?_eq_some h⟩

end Select

/-- The directories that `iso9660_open` searches, with the components to find from there. -/
inductive Visits (v : Volume) (d0 : Extent) (cs0 : List Name) : Extent → List Name → Prop where
  | start : Visits v d0 cs0 d0 cs0
  | next {d : Extent} {c : Name} {cs : List Name} {e : Entry} : Visits v d0 cs0 d (c :: cs) →
      cs ≠ [] → searchDir v d c c.length = .ok (some e) → e.flagDir = true →
      Visits v d0 cs0 e.extent cs

def Tree.Finds (t : Tree v) (d : Extent) (es : List Entry) (cs : List Name) : Prop :=
  Option.map handle <$> walk v d cs = .ok ((t.lookup es cs).map handle) ∧
  ∀ d' c cs' e, Visits v d cs d' (c :: cs') → c ≠ [] → searchDir v d' c c.length = .ok (some e) →
    Named c e.identifier

/-- No entry on the way has the name with another extension before the first one that has it; and
the bytes of a file on the way, read as those of a directory, lead to nothing. -/
def Tree.Clear (t : Tree v) : List Entry → List Name → Prop
  | _, [] => True
  | es, c :: cs => Distinct c es ∧ (cs ≠ [] → ∀ e, firstNamed c es = some e →
      if e.flagDir then ∀ es', t.entries e.extent = some es' → t.Clear es' cs
      else walk v e.extent cs = .ok none)

section Finds

variable {t : Tree v} {d : Extent} {es : List Entry} {cs : List Name}

theorem Tree.lookup_cons {c : Name} (hcs : cs ≠ []) :
    t.lookup es (c :: cs) = (firstNamed c es).bind fun e =>
      if e.flagDir then (t.entries e.extent).bind fun es' => t.lookup es' cs else none := by
  cases cs with
  | nil => exact absurd rfl hcs
  | cons c' cs => rfl

theorem Tree.searchDir_eq {c : Name} (hd : t.entries d = some es) (hc : c ≠ []) :
    searchDir v d c c.length = .ok (firstAccepted c es) :=
  (t.isDirectory d es hd).searchDir_eq hc prefix_rfl

theorem Visits.cons {c : Name} {e : Entry} {d' : Extent} {cs' : List Name}
    (h : Visits v e.extent cs d' cs') (hne : cs ≠ [])
    (hsearch : searchDir v d c c.length = .ok (some e)) (hdir : e.flagDir = true) :
    Visits v d (c :: cs) d' cs' := by
  induction h with
  | start => exact .next .start hne hsearch hdir
  | next _ hne' hsearch' hdir' ih => exact .next ih hne' hsearch' hdir'

theorem forall_dropLast_cons {c : Name} (hne : cs ≠ []) :
    (∀ x ∈ (c :: cs).dropLast, x ≠ []) ↔ c ≠ [] ∧ ∀ x ∈ cs.dropLast, x ≠ [] := by
  rw [dropLast_cons_of_ne_nil hne, forall_mem_cons]

theorem Tree.Finds.clear (h : t.Finds d es cs) (hd : t.entries d = some es)
    (hcs : ∀ c ∈ cs.dropLast, c ≠ []) : t.Clear es cs := by
  induction cs generalizing d es with
  | nil => trivial
  | cons c cs ih =>
    obtain ⟨hwalk, hselects⟩ := h
    have hdist : Distinct c es := by
      by_cases hc : c = []
      · exact fun e _ hconfused => hconfused.1 hc
      · refine distinct_of_selected hc fun e he => hselects d c cs e .start hc ?_
        rw [t.searchDir_eq hd hc, he]
    refine ⟨hdist, fun hne e he => ?_⟩
    obtain ⟨hc, hcs⟩ := (forall_dropLast_cons hne).mp hcs
    have hsearch : searchDir v d c c.length = .ok (some e) := by
      rw [t.searchDir_eq hd hc, hdist.firstAccepted hc, he]
    rw [walk_cons hne, hsearch, ok_bind, Tree.lookup_cons hne, he, Option.bind_some] at hwalk
    dsimp only at hwalk
    split
    · rename_i hdir
      intro es' hes'
      rw [if_pos hdir, hes', Option.bind_some] at hwalk
      refine ih ⟨hwalk, fun d' c' cs' e' hvisit => ?_⟩ hes' hcs
      exact hselects d' c' cs' e' (hvisit.cons hne hsearch hdir)
    · rename_i hfile
      rw [if_neg hfile] at hwalk
      obtain ⟨found, hfound, hnone⟩ := map_eq_ok.mp hwalk
      rw [hfound, Option.map_eq_none_iff.mp hnone]

theorem Tree.Clear.walk_eq (h : t.Clear es cs) (hd : t.entries d = some es)
    (hcs : ∀ c ∈ cs.dropLast, c ≠ []) : walk v d cs = .ok (t.lookup es cs) := by
  induction cs generalizing d es with
  | nil => rfl
  | cons c cs ih =>
    obtain ⟨hdist, hrest⟩ := h
    by_cases hne : cs = []
    · subst hne
      rw [walk, Tree.lookup]
      by_cases hc : c = []
      · have hnone : firstNamed c es = none := find?_eq_none.mpr fun e _ => by simp [Named, hc]
        rw [if_pos hc, hnone]
      · rw [if_neg hc, t.searchDir_eq hd hc, hdist.firstAccepted hc]
    · obtain ⟨hc, hcs⟩ := (forall_dropLast_cons hne).mp hcs
      rw [walk_cons hne, t.searchDir_eq hd hc, hdist.firstAccepted hc, ok_bind, Tree.lookup_cons hne]
      cases he : firstNamed c es with
      | none => rfl
      | some e =>
        have hnext := hrest hne e he
        dsimp only
        rw [Option.bind_some]
        split at hnext
        · rename_i hdir
          obtain ⟨es', hes'⟩ :=
            Option.isSome_iff_exists.mp (t.closed d es hd e (named_of_firstNamed he).2 hdir)
          rw [if_pos hdir, hes', Option.bind_some, ih (hnext es' hes') hes' hcs]
        · rename_i hfile
          rw [if_neg hfile, hnext]

theorem Tree.Clear.visits {d' : Extent} {cs' : List Name} (h : t.Clear es cs)
    (hd : t.entries d = some es) (hcs : ∀ c ∈ cs.dropLast, c ≠ []) (hvisit : Visits v d cs d' cs') :
    ∃ es', t.entries d' = some es' ∧ t.Clear es' cs' ∧ ∀ c ∈ cs'.dropLast, c ≠ [] := by
  induction hvisit with
  | start => exact ⟨es, hd, h, hcs⟩
  | next _ hne hsearch hdir ih =>
    obtain ⟨es', hes', ⟨hdist, hrest⟩, hcs'⟩ := ih
    obtain ⟨hc, hcs'⟩ := (forall_dropLast_cons hne).mp hcs'
    rw [t.searchDir_eq hes' hc, hdist.firstAccepted hc, Except.ok.injEq] at hsearch
    have hnext := hrest hne _ hsearch
    rw [if_pos hdir] at hnext
    obtain ⟨es'', hes''⟩ :=
      Option.isSome_iff_exists.mp (t.closed _ es' hes' _ (named_of_firstNamed hsearch).2 hdir)
    exact ⟨es'', hes'', hnext es'' hes'', hcs'⟩

theorem Tree.Clear.finds (h : t.Clear es cs) (hd : t.entries d = some es)
    (hcs : ∀ c ∈ cs.dropLast, c ≠ []) : t.Finds d es cs := by
  refine ⟨by rw [h.walk_eq hd hcs]; rfl, fun d' c cs' e hvisit hc hsearch => ?_⟩
  obtain ⟨es', hes', ⟨hdist, -⟩, -⟩ := h.visits hd hcs hvisit
  rw [t.searchDir_eq hes' hc, hdist.firstAccepted hc, Except.ok.injEq] at hsearch
  exact (named_of_firstNamed hsearch).1

end Finds

/-- An absolute path opens the entry that it names, and each component selects an entry with its
name, if and only if the way is clear of entries with another extension. -/
theorem iso9660_open_finds_iff (v : Volume) (t : Tree v) (es : List Entry) (pathname : Name)
    (hroot : t.entries v.root = some es) (habsolute : pathname.head? = some pathsep) :
    (iso9660Open v pathname = .ok ((t.lookup es (components pathname)).map handle) ∧
      ∀ d c cs e, Visits v v.root (components pathname) d (c :: cs) → c ≠ [] →
        searchDir v d c c.length = .ok (some e) → Named c e.identifier) ↔
    t.Clear es (components pathname) := by
  have hopen : iso9660Open v pathname = Option.map handle <$> walk v v.root (components pathname) := by
    rw [iso9660Open, if_neg (by simp [habsolute]), openFrom_eq_walk (Nat.lt_succ_self _)]
  have hcs : ∀ c ∈ (components pathname).dropLast, c ≠ [] := fun c => dropLast_components
  rw [hopen]
  exact ⟨fun h => Tree.Finds.clear h hroot hcs, fun h => h.finds hroot hcs⟩

def fooTxt : Entry := ⟨[70, 79, 79, 46, 84, 88, 84, 59, 49], ⟨20, 5⟩, false⟩

def rootSector : Page := fun i =>
  List.getD [42, 0, 20, 0, 0, 0, 0, 0, 0, 20, 5, 0, 0, 0, 0, 0, 0, 5, 0, 0, 0, 0, 0, 0, 0, 0, 0, 0,
    1, 0, 0, 1, 9, 70, 79, 79, 46, 84, 88, 84, 59, 49] i 0

def small : Volume := ⟨[rootSector], ⟨0, 2048⟩⟩

def smallTree : Tree small where
  entries d := if d = ⟨0, 2048⟩ then some [fooTxt] else none
  isDirectory d es h := by
    split at h
    · rename_i hd
      cases h
      subst hd
      refine ⟨[[fooTxt]], ⟨List.cons_ne_nil _ _, ⟨rootSector, rfl, ?_⟩, trivial⟩, rfl, rfl⟩
      refine ⟨⟨by decide, by decide, by decide⟩, by decide, fun i hi _ => ?_⟩
      rw [rootSector, List.getD_eq_getElem?_getD, List.getElem?_eq_none hi]
      rfl
    · cases h
  closed d es h e he hdir := by
    split at h
    · cases h
      obtain rfl := List.mem_singleton.mp he
      cases hdir
    · cases h
  root := rfl

theorem iso9660_open_finds_iff_foo_txt :
    iso9660Open small [47, 102, 111, 111, 46, 116, 120, 116] = .ok (some ⟨20, 0, 5⟩) := by
  refine ((iso9660_open_finds_iff small smallTree [fooTxt] _ rfl rfl).mpr ?_).1
  exact ⟨by decide, fun h => absurd rfl h⟩

/-- `/foo` opens `FOO.TXT;1`. -/
theorem iso9660_open_ignores_extension :
    iso9660Open small [47, 102, 111, 111] = .ok (some ⟨20, 0, 5⟩) ∧
      smallTree.lookup [fooTxt] (components [47, 102, 111, 111]) = none :=
  ⟨by decide, by decide⟩

end Quest.Fs.Iso9660
