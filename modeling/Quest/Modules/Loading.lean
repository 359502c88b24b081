import Quest.Modules.Loader

/-! What `module_load_all` loads: the least set that is closed under the meaning of the
dependencies. -/
namespace Quest.Modules

open List

variable {t : Table} {L : Set Nat}

def State.set (s : State) : Set Nat := {k | s.loaded k = true}

/-- The loaded modules belong to `L`, and the init functions found their dependencies loaded. -/
structure Inv (t : Table) (L : Set Nat) (s : State) : Prop where
  sub : s.set ⊆ L
  called : ∀ n ∈ s.set, ∃ c ∈ s.calls, c.1 = n
  range : ∀ c ∈ s.calls, c.1 < t.cnt
  done : ∀ c ∈ s.calls, (t.mod c.1).init = true → c.1 ∈ s.set
  ready : ∀ c ∈ s.calls, ∀ dep ∈ (t.mod c.1).dependencies, Satisfied Takes t {k | c.2 k = true} dep
  before : ∀ c ∈ s.calls, {k | c.2 k = true} ⊆ s.set
  once : ((s.calls.map Prod.fst).filter fun n => (t.mod n).init).Nodup

structure Moves (t : Table) (L : Set Nat) (scope : Nat → Prop) (s s' : State) : Prop where
  inv : Inv t L s'
  mono : s.set ⊆ s'.set
  frame : ∀ k ∈ s'.set, k ∈ s.set ∨ scope k

theorem Moves.refl {scope : Nat → Prop} {s : State} (h : Inv t L s) : Moves t L scope s s :=
  ⟨h, subset_rfl, fun _ => .inl⟩

theorem Moves.trans {scope : Nat → Prop} {s s' s'' : State} (h : Moves t L scope s s')
    (h' : Moves t L scope s' s'') : Moves t L scope s s'' :=
  ⟨h'.inv, h.mono.trans h'.mono, fun k hk => (h'.frame k hk).elim (h.frame k) .inr⟩

theorem Moves.weaken {scope scope' : Nat → Prop} {s s' : State} (h : Moves t L scope s s')
    (hscope : ∀ k, scope k → scope' k) : Moves t L scope' s s' :=
  ⟨h.inv, h.mono, fun k hk => (h.frame k hk).imp_right (hscope k)⟩

/-- The loader returns whether `P` holds in `L`, and makes it hold of the loaded modules if it
can. -/
def Gives (t : Table) (L : Set Nat) (scope : Nat → Prop) (s : State)
    (r : Except Fault (State × Bool)) (success : Bool) (P : Set Nat → Prop) : Prop :=
  ∃ s' b, r = .ok (s', b) ∧ Moves t L scope s s' ∧ (b = true ↔ success = true ∨ P L) ∧
    (b = true → success = true ∨ P s'.set)

section Loops

variable {scope : Nat → Prop} {load : State → Nat → Except Fault (State × Bool)} {s : State}
  {success : Bool}

theorem Gives.congr {r : Except Fault (State × Bool)} {P Q : Set Nat → Prop}
    (h : Gives t L scope s r success P) (hiff : ∀ X, P X ↔ Q X) : Gives t L scope s r success Q := by
  obtain ⟨s', b, hr, hmoves, hL, hset⟩ := h
  exact ⟨s', b, hr, hmoves, by rw [hL, hiff], fun hb => (hset hb).imp_right (hiff _).mp⟩

section Name

variable {names : Bytes} {p : Nat × Nat} {a : Bytes}
  (hdistinct : ∀ n < t.cnt, ∀ k < t.cnt, (t.mod n).name = (t.mod k).name → n = k)
  (htries : ∀ modname, tries names p.1 p.2 modname = true ↔ Takes a modname)
  (hsubtree : subtree names p.2 = true ↔ underscores <:+ a)
  (hload : ∀ k < t.cnt, Takes a (t.mod k).name → ∀ s, Inv t L s →
    Gives t L scope s (load s k) false (k ∈ ·))
include hdistinct htries hsubtree hload

omit hdistinct htries hsubtree hload in
theorem exists_mem_cons (X : Set Nat) (n : Nat) (ns : List Nat) :
    (∃ k ∈ X, k ∈ n :: ns ∧ Takes a (t.mod k).name) ↔
      n ∈ X ∧ Takes a (t.mod n).name ∨ ∃ k ∈ X, k ∈ ns ∧ Takes a (t.mod k).name := by
  constructor
  · rintro ⟨k, hk, hmem, htakes⟩
    obtain rfl | hmem := mem_cons.mp hmem
    · exact .inl ⟨hk, htakes⟩
    · exact .inr ⟨k, hk, hmem, htakes⟩
  · rintro (⟨hn, htakes⟩ | ⟨k, hk, hmem, htakes⟩)
    · exact ⟨n, hn, mem_cons_self, htakes⟩
    · exact ⟨k, hk, mem_cons_of_mem n hmem, htakes⟩

theorem loadNameFrom_gives {ns : List Nat} (hns : ∀ n ∈ ns, n < t.cnt) (hnodup : ns.Nodup)
    (hs : Inv t L s) :
    Gives t L scope s (loadNameFrom t load names p.1 p.2 ns s success) success
      fun X => ∃ k ∈ X, k ∈ ns ∧ Takes a (t.mod k).name := by
  induction ns generalizing s success with
  | nil => exact ⟨s, success, rfl, .refl hs, by simp, by simp⟩
  | cons n ns ih =>
    rw [forall_mem_cons] at hns
    rw [nodup_cons] at hnodup
    rw [loadNameFrom]
    by_cases htakes : Takes a (t.mod n).name
    · rw [if_pos ((htries _).mpr htakes)]
      obtain ⟨s', b, hok, hmoves, hL, hset⟩ := hload n hns.1 htakes s hs
      simp only [hok, ok_bind]
      split
      · obtain ⟨s'', b', hok', hmoves', hL', hset'⟩ :=
          @ih s' (success || b) hns.2 hnodup.2 hmoves.inv
        refine ⟨s'', b', hok', hmoves.trans hmoves', ?_, fun hb => ?_⟩
        · simp only [hL', Bool.or_eq_true, hL, exists_mem_cons]
          simp [htakes, or_assoc]
        · simp only [exists_mem_cons]
          obtain hb | hrest := hset' hb
          · obtain hb | hb := (Bool.or_eq_true _ _).mp hb
            · exact .inl hb
            · have hn := (hset hb).resolve_left (by simp)
              exact .inr (.inl ⟨hmoves'.mono hn, htakes⟩)
          · exact .inr (.inr hrest)
      · -- the name is that of no other module
        rename_i hsub
        rw [hsubtree] at hsub
        have hother : ∀ k ∈ ns, ¬Takes a (t.mod k).name := by
          intro k hk htakes'
          rw [Takes, if_neg hsub] at htakes htakes'
          have heq := hdistinct n hns.1 k (hns.2 k hk) (htakes.trans htakes'.symm)
          exact hnodup.1 (heq ▸ hk)
        have hiff (X : Set Nat) : (∃ k ∈ X, k ∈ n :: ns ∧ Takes a (t.mod k).name) ↔ n ∈ X := by
          rw [exists_mem_cons]
          constructor
          · rintro (⟨hn, -⟩ | ⟨k, -, hk, htakes'⟩)
            · exact hn
            · exact absurd htakes' (hother k hk)
          · exact fun hn => .inl ⟨hn, htakes⟩
        refine ⟨s', success || b, rfl, hmoves, ?_, fun hb => ?_⟩
        · simp only [Bool.or_eq_true, hL, hiff]
          simp
        · simp only [hiff]
          exact (Bool.or_eq_true _ _).mp hb |>.imp_right fun hb => (hset hb).resolve_left (by simp)
    · rw [if_neg (mt (htries _).mp htakes)]
      refine (ih hns.2 hnodup.2 hs).congr fun X => ?_
      rw [exists_mem_cons]
      simp [htakes]

theorem loadName_gives (hs : Inv t L s) :
    Gives t L scope s (loadName t load names p.1 p.2 s) false
      fun X => ∃ k ∈ X, k < t.cnt ∧ Takes a (t.mod k).name := by
  have h : Gives t L scope s (loadNameFrom t load names p.1 p.2 (range t.cnt) s false) false
      fun X => ∃ k ∈ X, k ∈ range t.cnt ∧ Takes a (t.mod k).name :=
    loadNameFrom_gives hdistinct htries hsubtree hload (fun n hn => mem_range.mp hn)
      nodup_range hs
  exact h.congr fun X => by simp only [mem_range]

end Name

section Deps

variable {n : Nat} (hn : n < t.cnt) (hlegible : t.Legible)
  (hdistinct : ∀ n < t.cnt, ∀ k < t.cnt, (t.mod n).name = (t.mod k).name → n = k)
  (hload : ∀ k, DependsOn Takes t k n → ∀ s, Inv t L s →
    Gives t L scope s (load s k) false (k ∈ ·))
include hn hlegible hdistinct hload

theorem loadDisjFrom_gives {dep : Bytes} (hdep : dep ∈ (t.mod n).dependencies)
    {ps : List (Nat × Nat)} (hps : ∀ p ∈ ps, p ∈ spans dep ∧ slice dep p ∈ alternatives dep)
    (hs : Inv t L s) :
    Gives t L scope s (loadDisjFrom t load dep ps s success) success
      fun X => ∃ p ∈ ps, ∃ k ∈ X, k < t.cnt ∧ Takes (slice dep p) (t.mod k).name := by
  induction ps generalizing s success with
  | nil => exact ⟨s, success, rfl, .refl hs, by simp, by simp⟩
  | cons p ps ih =>
    rw [forall_mem_cons] at hps
    obtain ⟨⟨hspan, halternative⟩, hps⟩ := hps
    have hlong := hlegible n hn dep hdep _ halternative
    obtain ⟨s', b, hok, hmoves, hL, hset⟩ := loadName_gives hdistinct
      (fun modname => tries_iff hspan hlong) (subtree_iff hspan hlong)
      (fun k hk htakes => hload k ⟨hk, dep, hdep, _, halternative, htakes⟩) hs
    obtain ⟨s'', b', hok', hmoves', hL', hset'⟩ := @ih s' (success || b) hps hmoves.inv
    refine ⟨s'', b', ?_, hmoves.trans hmoves', ?_, fun hb => ?_⟩
    · rw [loadDisjFrom]
      simp only [hok, ok_bind, hok']
    · rw [hL', Bool.or_eq_true, hL]
      simp [or_assoc]
    · obtain hb | ⟨q, hq, hrest⟩ := hset' hb
      · obtain hb | hb := (Bool.or_eq_true _ _).mp hb
        · exact .inl hb
        · obtain ⟨k, hk, hrest⟩ := (hset hb).resolve_left (by simp)
          exact .inr ⟨p, mem_cons_self, k, hmoves'.mono hk, hrest⟩
      · exact .inr ⟨q, mem_cons_of_mem p hq, hrest⟩

theorem loadDisj_gives {dep : Bytes} (hdep : dep ∈ (t.mod n).dependencies) (hs : Inv t L s) :
    Gives t L scope s (loadDisj t load dep s) false fun X => Satisfied Takes t X dep := by
  have hne : dep ≠ [] := by
    rintro rfl
    have := hlegible n hn [] hdep [] (by simp [alternatives])
    simp at this
  have hslices := slice_spans hne
  have h : Gives t L scope s (loadDisjFrom t load dep (spans dep) s false) false
      fun X => ∃ p ∈ spans dep, ∃ k ∈ X, k < t.cnt ∧ Takes (slice dep p) (t.mod k).name :=
    loadDisjFrom_gives hn hlegible hdistinct hload hdep
      (fun p hp => ⟨hp, hslices ▸ mem_map_of_mem hp⟩) hs
  refine h.congr fun X => ?_
  rw [Satisfied, ← hslices]
  simp

theorem loadDeps_gives {deps : List Bytes} (hdeps : ∀ dep ∈ deps, dep ∈ (t.mod n).dependencies)
    (hs : Inv t L s) :
    Gives t L scope s (loadDeps t load deps s) false
      fun X => ∀ dep ∈ deps, Satisfied Takes t X dep := by
  induction deps generalizing s with
  | nil => exact ⟨s, true, rfl, .refl hs, by simp, by simp⟩
  | cons dep deps ih =>
    rw [forall_mem_cons] at hdeps
    obtain ⟨s', b, hok, hmoves, hL, hset⟩ := loadDisj_gives hn hlegible hdistinct hload hdeps.1 hs
    rw [loadDeps]
    simp only [hok, ok_bind]
    cases b with
    | false =>
      refine ⟨s', false, rfl, hmoves, ?_, nofun⟩
      have hnot : ¬Satisfied Takes t L dep := by simpa using hL
      simp [hnot]
    | true =>
      have hdep : Satisfied Takes t L dep := by simpa using hL
      obtain ⟨s'', b', hok', hmoves', hL', hset'⟩ := ih hdeps.2 hmoves.inv
      refine ⟨s'', b', by simpa using hok', hmoves.trans hmoves', ?_, fun hb => .inr ?_⟩
      · rw [hL']
        simp [hdep]
      · refine forall_mem_cons.mpr ⟨?_, (hset' hb).resolve_left (by simp)⟩
        obtain ⟨a, ha, k, hk, hrest⟩ := (hset rfl).resolve_left (by simp)
        exact ⟨a, ha, k, hmoves'.mono hk, hrest⟩

end Deps

end Loops

section Init

variable {s : State} {n : Nat}

theorem State.init_calls : (s.init t n).1.calls = s.calls ++ [(n, s.loaded)] := by
  rw [State.init]
  split <;> rfl

theorem State.mem_set_init {k : Nat} :
    k ∈ (s.init t n).1.set ↔ k ∈ s.set ∨ k = n ∧ (t.mod n).init = true := by
  rw [State.init, State.set, State.set]
  split
  · rename_i hinit
    simp only [Set.mem_ofPred_eq, Function.update_apply, hinit, and_true]
    split <;> simp_all
  · rename_i hinit
    simp [hinit]

theorem State.init_snd : (s.init t n).2 = (t.mod n).init := by
  rw [State.init]
  cases hinit : (t.mod n).init <;> rfl

theorem Inv.init (h : Inv t L s) (hn : n < t.cnt) (hnew : n ∉ s.set)
    (hready : ∀ dep ∈ (t.mod n).dependencies, Satisfied Takes t s.set dep)
    (hL : (t.mod n).init = true → n ∈ L) : Inv t L (s.init t n).1 := by
  have hmono : s.set ⊆ (s.init t n).1.set := fun k hk => State.mem_set_init.mpr (.inl hk)
  have hcalls : ∀ c, c ∈ (s.init t n).1.calls ↔ c ∈ s.calls ∨ c = (n, s.loaded) := by
    simp [State.init_calls]
  constructor
  case sub =>
    intro k hk
    obtain hk | ⟨rfl, hinit⟩ := State.mem_set_init.mp hk
    · exact h.sub hk
    · exact hL hinit
  case called =>
    intro k hk
    obtain hk | ⟨rfl, -⟩ := State.mem_set_init.mp hk
    · obtain ⟨c, hc, heq⟩ := h.called k hk
      exact ⟨c, (hcalls c).mpr (.inl hc), heq⟩
    · exact ⟨_, (hcalls _).mpr (.inr rfl), rfl⟩
  case range =>
    intro c hc
    obtain hc | rfl := (hcalls c).mp hc
    · exact h.range c hc
    · exact hn
  case done =>
    intro c hc hinit
    obtain hc | rfl := (hcalls c).mp hc
    · exact hmono (h.done c hc hinit)
    · exact State.mem_set_init.mpr (.inr ⟨rfl, hinit⟩)
  case ready =>
    intro c hc
    obtain hc | rfl := (hcalls c).mp hc
    · exact h.ready c hc
    · exact hready
  case before =>
    intro c hc
    obtain hc | rfl := (hcalls c).mp hc
    · exact (h.before c hc).trans hmono
    · exact hmono
  case once =>
    rw [State.init_calls, map_append, filter_append, nodup_append]
    refine ⟨h.once, List.Nodup.filter _ (nodup_singleton n), fun k hk k' hk' => ?_⟩
    rintro rfl
    obtain ⟨hk, hinit⟩ := mem_filter.mp hk
    obtain ⟨c, hc, rfl⟩ := mem_map.mp hk
    obtain rfl : c.1 = n := mem_singleton.mp (mem_filter.mp hk').1
    exact hnew (h.done c hc hinit)

end Init

def Below (t : Table) (n k : Nat) : Prop := Relation.ReflTransGen (DependsOn Takes t) k n

section LoadI

variable (hlegible : t.Legible)
  (hdistinct : ∀ n < t.cnt, ∀ k < t.cnt, (t.mod n).name = (t.mod k).name → n = k)
  (hwf : WellFounded (DependsOn Takes t)) (hL : ∀ n, n ∈ L ↔ Ready Takes t L n)
include hlegible hdistinct hwf hL

theorem loadI_succ {fuel n : Nat} (hn : n < t.cnt)
    (hload : ∀ k, DependsOn Takes t k n → ∀ s, Inv t L s →
      Gives t L (Below t k) s (loadI t fuel s k) false (k ∈ ·)) {s : State} (hs : Inv t L s) :
    Gives t L (Below t n) s (loadI t (fuel + 1) s n) false (n ∈ ·) := by
  rw [loadI]
  by_cases hloaded : s.loaded n = true
  · rw [if_pos hloaded]
    exact ⟨s, true, rfl, .refl hs, by simp [hs.sub hloaded], fun _ => .inr hloaded⟩
  rw [if_neg hloaded]
  have hdeps : Gives t L (fun k => Relation.TransGen (DependsOn Takes t) k n) s
      (loadDeps t (loadI t fuel) (t.mod n).dependencies s) false
      fun X => ∀ dep ∈ (t.mod n).dependencies, Satisfied Takes t X dep := by
    apply loadDeps_gives hn hlegible hdistinct _ (fun dep hdep => hdep) hs
    intro k hk s hs
    obtain ⟨s', b, hok, hmoves, hrest⟩ := hload k hk s hs
    exact ⟨s', b, hok, hmoves.weaken fun j hj => Relation.TransGen.tail' hj hk, hrest⟩
  obtain ⟨s', b, hok, hmoves, hready, hset⟩ := hdeps
  have hbelow : Moves t L (Below t n) s s' := hmoves.weaken fun j hj => hj.to_reflTransGen
  simp only [hok, ok_bind]
  cases b with
  | false =>
    refine ⟨s', false, rfl, hbelow, ?_, nofun⟩
    have hnot : n ∉ L := fun hmem => Bool.false_ne_true (hready.mpr (.inr ((hL n).mp hmem).2.2))
    simpa using hnot
  | true =>
    have hnew : n ∉ s'.set := by
      intro hmem
      obtain hold | hcycle := hmoves.frame n hmem
      · exact hloaded hold
      · exact hwf.transGen.asymmetric _ _ hcycle hcycle
    have hinL : (t.mod n).init = true ↔ n ∈ L := by
      rw [hL, Ready]
      have hready : ∀ dep ∈ (t.mod n).dependencies, Satisfied Takes t L dep := by simpa using hready
      exact ⟨fun hinit => ⟨hn, hinit, hready⟩, fun h => h.2.1⟩
    have hinv := hmoves.inv.init hn hnew ((hset rfl).resolve_left (by simp)) hinL.mp
    refine ⟨(s'.init t n).1, (s'.init t n).2, rfl, hbelow.trans ⟨hinv, ?_, ?_⟩, ?_, fun hb => ?_⟩
    · exact fun k hk => State.mem_set_init.mpr (.inl hk)
    · intro k hk
      exact (State.mem_set_init.mp hk).imp_right fun ⟨heq, _⟩ => heq ▸ Relation.ReflTransGen.refl
    · rw [State.init_snd, hinL]
      simp
    · rw [State.init_snd] at hb
      exact .inr (State.mem_set_init.mpr (.inr ⟨rfl, hb⟩))

theorem loadI_gives {n : Nat} (hn : n < t.cnt) :
    ∃ N, ∀ fuel, N ≤ fuel → ∀ s, Inv t L s →
      Gives t L (Below t n) s (loadI t fuel s n) false (n ∈ ·) := by
  induction n using hwf.induction with
  | _ n ih =>
    have hbnds : ∀ k, DependsOn Takes t k n → ∃ N, ∀ fuel, N ≤ fuel → ∀ s, Inv t L s →
        Gives t L (Below t k) s (loadI t fuel s k) false (k ∈ ·) := fun k hk => ih k hk hk.1
    choose! bound hbound using hbnds
    refine ⟨(Finset.range t.cnt).sup bound + 1, fun fuel hfuel s hs => ?_⟩
    obtain ⟨fuel, rfl⟩ : ∃ m, fuel = m + 1 := ⟨fuel - 1, by omega⟩
    refine loadI_succ hlegible hdistinct hwf hL hn (fun k hk => hbound k hk fuel ?_) hs
    have := Finset.le_sup (f := bound) (Finset.mem_range.mpr hk.1)
    omega

omit hlegible hdistinct hwf hL in
theorem loadAll_loop {fuel : Nat} {ns : List Nat}
    (hload : ∀ n ∈ ns, ∀ s, Inv t L s → Gives t L (Below t n) s (loadI t fuel s n) false (n ∈ ·))
    {s : State} (hs : Inv t L s) :
    ∃ s', ns.foldlM (fun s n => Prod.fst <$> loadI t fuel s n) s = .ok s' ∧ Inv t L s' ∧
      s.set ⊆ s'.set ∧ ∀ n ∈ ns, n ∈ L → n ∈ s'.set := by
  induction ns generalizing s with
  | nil => exact ⟨s, rfl, hs, subset_rfl, nofun⟩
  | cons n ns ih =>
    rw [forall_mem_cons] at hload
    obtain ⟨s', b, hok, hmoves, hL', hset⟩ := hload.1 s hs
    obtain ⟨s'', hok', hinv, hmono, hrest⟩ := ih hload.2 hmoves.inv
    refine ⟨s'', ?_, hinv, hmoves.mono.trans hmono, forall_mem_cons.mpr ⟨fun hn => ?_, hrest⟩⟩
    · rw [foldlM_cons, hok]
      exact hok'
    · exact hmono ((hset (hL'.mpr (.inr hn))).resolve_left (by simp))

theorem loadAll_eq :
    ∃ N, ∀ fuel, N ≤ fuel → ∃ s, loadAll fuel t true = .ok (s, true) ∧ Inv t L s ∧ s.set = L := by
  have hbnds : ∀ n, n < t.cnt → ∃ N, ∀ fuel, N ≤ fuel → ∀ s, Inv t L s →
      Gives t L (Below t n) s (loadI t fuel s n) false (n ∈ ·) := fun n hn =>
    loadI_gives hlegible hdistinct hwf hL hn
  choose! bound hbound using hbnds
  refine ⟨(Finset.range t.cnt).sup bound, fun fuel hfuel => ?_⟩
  have hempty : Inv t L .empty := ⟨nofun, nofun, nofun, nofun, nofun, nofun, nodup_nil⟩
  have hload : ∀ n ∈ range t.cnt, ∀ s, Inv t L s →
      Gives t L (Below t n) s (loadI t fuel s n) false (n ∈ ·) := by
    intro n hn
    have hn := mem_range.mp hn
    exact hbound n hn fuel ((Finset.le_sup (f := bound) (Finset.mem_range.mpr hn)).trans hfuel)
  obtain ⟨s, hok, hinv, -, hall⟩ := loadAll_loop hload hempty
  refine ⟨s, ?_, hinv, Set.Subset.antisymm hinv.sub fun n hn => ?_⟩
  · rw [loadAll]
    split
    · rename_i hcnt
      rw [hcnt] at hok
      cases hok
      rfl
    · rw [if_neg (by simp), hok, ok_bind]
  · exact hall n (mem_range.mpr ((hL n).mp hn).1) hn

end LoadI

section Least

variable {means means' : Bytes → Bytes → Prop}

theorem Satisfied.mono {X Y : Set Nat} {dep : Bytes} (h : Satisfied means t X dep)
    (hmeans : ∀ a name, means a name → means' a name) (hsub : X ⊆ Y) : Satisfied means' t Y dep := by
  obtain ⟨a, ha, k, hk, hlt, hmeans'⟩ := h
  exact ⟨a, ha, k, hsub hk, hlt, hmeans _ _ hmeans'⟩

theorem Ready.mono {X Y : Set Nat} {n : Nat} (h : Ready means t X n)
    (hmeans : ∀ a name, means a name → means' a name) (hsub : X ⊆ Y) : Ready means' t Y n :=
  ⟨h.1, h.2.1, fun dep hdep => (h.2.2 dep hdep).mono hmeans hsub⟩

theorem exists_ready (means : Bytes → Bytes → Prop) (t : Table) :
    ∃ L : Set Nat, ∀ n, n ∈ L ↔ Ready means t L n := by
  let F : Set Nat →o Set Nat :=
    ⟨fun X => {n | Ready means t X n}, fun X Y hsub n hn => Ready.mono hn (fun _ _ h => h) hsub⟩
  exact ⟨F.lfp, fun n => Set.ext_iff.mp F.map_lfp.symm n⟩

theorem ready_unique (hwf : WellFounded (DependsOn means t)) {L L' : Set Nat}
    (hL : ∀ n, n ∈ L ↔ Ready means t L n) (hL' : ∀ n, n ∈ L' ↔ Ready means t L' n) : L ⊆ L' := by
  intro n
  induction n using hwf.induction with
  | _ n ih =>
    intro hn
    obtain ⟨hlt, hinit, hdeps⟩ := (hL n).mp hn
    refine (hL' n).mpr ⟨hlt, hinit, fun dep hdep => ?_⟩
    obtain ⟨a, ha, k, hk, hlt, hmeans⟩ := hdeps dep hdep
    exact ⟨a, ha, k, ih k ⟨hlt, dep, hdep, a, ha, hmeans⟩ hk, hlt, hmeans⟩

end Least

/-- The loaded modules are the least set, every call of an init function found its dependencies
loaded, and none that succeeded was called again. -/
structure Loaded (t : Table) (s : State) : Prop where
  least : IsLeast {L : Set Nat | ∀ n, n ∈ L ↔ Ready Names t L n} s.set
  ready : ∀ c ∈ s.calls, ∀ dep ∈ (t.mod c.1).dependencies, Satisfied Names t {k | c.2 k = true} dep
  once : ((s.calls.map Prod.fst).filter fun n => (t.mod n).init).Nodup

/-- No module has a name that only starts a subtree alternative. -/
def Table.Exact (t : Table) : Prop :=
  ∀ n < t.cnt, ∀ dep ∈ (t.mod n).dependencies, ∀ a ∈ alternatives dep, ∀ k < t.cnt,
    Takes a (t.mod k).name → Names a (t.mod k).name

theorem Table.Exact.wellFounded (h : t.Exact) (hwf : WellFounded (DependsOn Names t)) :
    WellFounded (DependsOn Takes t) := by
  have hacc : ∀ n < t.cnt, Acc (DependsOn Takes t) n := by
    intro n
    induction n using hwf.induction with
    | _ n ih =>
      refine fun hn => ⟨n, fun k ⟨hk, dep, hdep, a, ha, htakes⟩ => ?_⟩
      exact ih k ⟨hk, dep, hdep, a, ha, h n hn dep hdep a ha k hk htakes⟩ hk
  exact ⟨fun n => ⟨n, fun k hk => hacc k hk.1⟩⟩

theorem Inv.loaded {s : State} (hwf : WellFounded (DependsOn Takes t)) (h : Inv t s.set s)
    (hset : ∀ n, n ∈ s.set ↔ Ready Takes t s.set n)
    (hready : ∀ c ∈ s.calls, ∀ dep ∈ (t.mod c.1).dependencies,
      Satisfied Names t {k | c.2 k = true} dep) : Loaded t s := by
  have hnames : WellFounded (DependsOn Names t) :=
    Subrelation.wf (fun ⟨hk, dep, hdep, a, ha, hnames⟩ =>
      ⟨hk, dep, hdep, a, ha, takes_of_names hnames⟩) hwf
  have hfix : ∀ n, n ∈ s.set ↔ Ready Names t s.set n := by
    intro n
    constructor
    · intro hn
      obtain ⟨hlt, hinit, -⟩ := (hset n).mp hn
      refine ⟨hlt, hinit, fun dep hdep => ?_⟩
      obtain ⟨c, hc, rfl⟩ := h.called n hn
      exact (hready c hc dep hdep).mono (fun _ _ h => h) (h.before c hc)
    · exact fun hn => (hset n).mpr (hn.mono (fun _ _ => takes_of_names) subset_rfl)
  exact ⟨⟨hfix, fun L hL => ready_unique hnames hfix hL⟩, hready, h.once⟩

/-- A module without dependencies, and `net`, which depends on the subtree `usb___`. -/
def netOver (name : Bytes) : Table where
  cnt := 2
  mod n := if n = 0 then ⟨name, [], true⟩
    else ⟨[110, 101, 116], [[117, 115, 98, 95, 95, 95]], true⟩

theorem netOver_alternatives {name dep a : Bytes} {n : Nat}
    (hdep : dep ∈ ((netOver name).mod n).dependencies) (ha : a ∈ alternatives dep) :
    n ≠ 0 ∧ a = [117, 115, 98, 95, 95, 95] := by
  simp only [netOver] at hdep
  split at hdep
  · cases hdep
  · rename_i hn
    obtain rfl := mem_singleton.mp hdep
    exact ⟨hn, mem_singleton.mp ha⟩

end Quest.Modules
