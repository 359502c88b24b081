import Quest.Basic
import Quest.Lib.Split

/-! The module loader, `module/loader.c`, and the language of its dependency strings. -/
namespace Quest.Modules

open List

abbrev Bytes := List UInt8

def bar : UInt8 := 124

def underscores : Bytes := [95, 95, 95]

structure Mod where
  name : Bytes
  dependencies : List Bytes
  init : Bool

/-- The first `cnt` entries of `mr` point to the modules. -/
structure Table where
  cnt : Nat
  mod : Nat → Mod

/-- The `loaded` flags, and the calls of init functions with the flags at that time. -/
structure State where
  loaded : Nat → Bool
  calls : List (Nat × (Nat → Bool))

/-- `strncmp`.  It returns 0 where one of the strings ends. -/
def strncmp : Bytes → Bytes → Nat → Int
  | x :: a, y :: b, n + 1 =>
      if x = y then strncmp a b n else x.toInt8.toInt - y.toInt8.toInt
  | _, _, _ => 0

def subtree (names : Bytes) (j : Nat) : Bool := underscores.isSuffixOf (names.take j)

def tries (names : Bytes) (i j : Nat) (modname : Bytes) : Bool :=
  (subtree names j || modname.length == j - i) && strncmp modname (names.drop i) (j - i) == 0

/-- The rounds `(i, j)` of the loop of `module_load_disj`, from `i` on. -/
def spansFrom (names : Bytes) : Nat → Nat → List (Nat × Nat)
  | 0, _ => []
  | n + 1, i =>
      let j := i + ((names.drop i).takeWhile (· ≠ bar)).length
      (i, j) :: if j < names.length then spansFrom names n (j + 1) else []

def spans (names : Bytes) : List (Nat × Nat) :=
  if names = [] then [] else spansFrom names (names.length + 1) 0

section Load

variable (t : Table) (load : State → Nat → Except Fault (State × Bool))

def loadNameFrom (names : Bytes) (i j : Nat) :
    List Nat → State → Bool → Except Fault (State × Bool)
  | [], s, success => .ok (s, success)
  | n :: ns, s, success =>
      if tries names i j (t.mod n).name then do
        let (s, loaded) ← load s n
        let success := success || loaded
        if subtree names j then loadNameFrom names i j ns s success else .ok (s, success)
      else loadNameFrom names i j ns s success

def loadName (names : Bytes) (i j : Nat) (s : State) : Except Fault (State × Bool) :=
  loadNameFrom t load names i j (List.range t.cnt) s false

def loadDisjFrom (names : Bytes) : List (Nat × Nat) → State → Bool → Except Fault (State × Bool)
  | [], s, success => .ok (s, success)
  | (i, j) :: rest, s, success => do
      let (s, loaded) ← loadName t load names i j s
      loadDisjFrom names rest s (success || loaded)

def loadDisj (names : Bytes) (s : State) : Except Fault (State × Bool) :=
  loadDisjFrom t load names (spans names) s false

def loadDeps : List Bytes → State → Except Fault (State × Bool)
  | [], s => .ok (s, true)
  | dep :: deps, s => do
      let (s, loaded) ← loadDisj t load dep s
      if loaded then loadDeps deps s else .ok (s, false)

end Load

def State.init (s : State) (t : Table) (n : Nat) : State × Bool :=
  let s := { s with calls := s.calls ++ [(n, s.loaded)] }
  if (t.mod n).init then ({ s with loaded := Function.update s.loaded n true }, true) else (s, false)

def loadI (t : Table) : Nat → State → Nat → Except Fault (State × Bool)
  | 0, _, _ => .error .diverges
  | fuel + 1, s, n =>
      if s.loaded n then .ok (s, true)
      else do
        let (s, ready) ← loadDeps t (loadI t fuel) (t.mod n).dependencies s
        if ready then .ok (s.init t n) else .ok (s, false)

def State.empty : State := ⟨fun _ => false, []⟩

/-- `module_load_all`, where the memory for `mr` may not be there. -/
def loadAll (fuel : Nat) (t : Table) (allocated : Bool) : Except Fault (State × Bool) :=
  if t.cnt = 0 then .ok (.empty, true)
  else if allocated = false then .ok (.empty, false)
  else do
    let s ← (List.range t.cnt).foldlM (fun s n => Prod.fst <$> loadI t fuel s n) .empty
    .ok (s, true)

def alternatives (dependency : Bytes) : List Bytes := dependency.splitOn bar

/-- The alternative names the module, or a subtree with the module. -/
def Names (alternative name : Bytes) : Prop :=
  if underscores <:+ alternative then alternative <+: name else name = alternative

def Takes (alternative name : Bytes) : Prop :=
  if underscores <:+ alternative then alternative <+: name ∨ name <+: alternative
  else name = alternative

instance (alternative name : Bytes) : Decidable (Names alternative name) := by
  unfold Names
  infer_instance

instance (alternative name : Bytes) : Decidable (Takes alternative name) := by
  unfold Takes
  infer_instance

section Meaning

variable (means : Bytes → Bytes → Prop) (t : Table)

/-- Some alternative of the dependency means a module of the set. -/
def Satisfied (X : Set Nat) (dependency : Bytes) : Prop :=
  ∃ a ∈ alternatives dependency, ∃ k ∈ X, k < t.cnt ∧ means a (t.mod k).name

def Ready (X : Set Nat) (n : Nat) : Prop :=
  n < t.cnt ∧ (t.mod n).init = true ∧ ∀ dep ∈ (t.mod n).dependencies, Satisfied means t X dep

def DependsOn (k n : Nat) : Prop :=
  k < t.cnt ∧ ∃ dep ∈ (t.mod n).dependencies, ∃ a ∈ alternatives dep, means a (t.mod k).name

end Meaning

/-- The alternatives that `module_load_name` can tell from what is before them. -/
def Table.Legible (t : Table) : Prop :=
  ∀ n < t.cnt, ∀ dep ∈ (t.mod n).dependencies, ∀ a ∈ alternatives dep, 3 ≤ a.length

def slice (names : Bytes) (p : Nat × Nat) : Bytes := (names.drop p.1).take (p.2 - p.1)

theorem strncmp_eq_zero {a b : Bytes} {n : Nat} :
    strncmp a b n = 0 ↔ a <+: b.take n ∨ b.take n <+: a := by
  induction n generalizing a b with
  | zero => cases a <;> simp [strncmp]
  | succ n ih =>
    cases a with
    | nil => simp [strncmp]
    | cons x a =>
      cases b with
      | nil => simp [strncmp]
      | cons y b =>
        rw [strncmp, take_succ_cons, cons_prefix_cons, cons_prefix_cons]
        by_cases heq : x = y
        · simp [heq, ih]
        · have hne : x.toInt8.toInt - y.toInt8.toInt ≠ 0 := by
            intro hzero
            have hsigned := Int8.toInt_inj.mp (Int.sub_eq_zero.mp hzero)
            exact heq (congrArg Int8.toUInt8 hsigned)
          simp [heq, Ne.symm heq, hne]

theorem slice_spansFrom {names : Bytes} {n i : Nat} (hi : i ≤ names.length)
    (hn : names.length < i + n) :
    (spansFrom names n i).map (slice names) = (names.drop i).splitOn bar := by
  induction n generalizing i with
  | zero => omega
  | succ n ih =>
    rw [spansFrom]
    have hc := Lib.Split.not_mem_takeWhile bar (names.drop i)
    have hlen := length_drop (i := i) (l := names)
    obtain ⟨hnot, hrest⟩ | ⟨behind, hrest⟩ := Lib.Split.takeWhile_cases bar (names.drop i)
    · rw [hrest, length_drop, Nat.add_sub_cancel' hi]
      simp [slice, Lib.Split.splitOn_of_not_mem hnot]
    · generalize hpart : (names.drop i).takeWhile (· ≠ bar) = c at hc hrest ⊢
      have hbehind : names.drop (i + c.length + 1) = behind := by
        rw [Nat.add_assoc, ← drop_drop, hrest, ← drop_drop, drop_left]
        rfl
      have hlt : i + c.length + 1 ≤ names.length := by
        have := congrArg length hrest
        rw [length_append, length_cons] at this
        omega
      rw [if_pos (Nat.lt_of_succ_le hlt), map_cons, ih hlt (by omega), hbehind, slice, Nat.add_sub_cancel_left,
        hrest, take_left, Lib.Split.splitOn_append hc]

theorem slice_spans {names : Bytes} (hne : names ≠ []) :
    (spans names).map (slice names) = alternatives names := by
  rw [spans, if_neg hne, slice_spansFrom (Nat.zero_le _) (by omega)]
  rfl

theorem mem_spansFrom {names : Bytes} {n i : Nat} {p : Nat × Nat} (hi : i ≤ names.length)
    (hp : p ∈ spansFrom names n i) : p.1 ≤ p.2 ∧ p.2 ≤ names.length := by
  induction n generalizing i with
  | zero => cases hp
  | succ n ih =>
    have hlen : ((names.drop i).takeWhile (· ≠ bar)).length ≤ names.length - i := by
      rw [← length_drop]
      exact (List.takeWhile_prefix _).length_le
    rw [spansFrom, mem_cons] at hp
    obtain rfl | hp := hp
    · exact ⟨Nat.le_add_right _ _, by dsimp only; omega⟩
    · split at hp
      · rename_i hlt
        exact ih hlt hp
      · cases hp

theorem mem_spans {names : Bytes} {p : Nat × Nat} (hp : p ∈ spans names) :
    p.1 ≤ p.2 ∧ p.2 ≤ names.length := by
  rw [spans] at hp
  split at hp
  · cases hp
  · exact mem_spansFrom (Nat.zero_le _) hp

theorem length_slice {names : Bytes} {p : Nat × Nat} (hp : p ∈ spans names) :
    (slice names p).length = p.2 - p.1 := by
  have := mem_spans hp
  rw [slice, length_take, length_drop]
  omega

section Tries

variable {names modname : Bytes} {p : Nat × Nat} (hp : p ∈ spans names)
  (hlong : 3 ≤ (slice names p).length)
include hp hlong

theorem subtree_iff : subtree names p.2 = true ↔ underscores <:+ slice names p := by
  have htake : names.take p.2 = names.take p.1 ++ slice names p := by
    rw [slice, ← take_add, Nat.add_sub_cancel' (mem_spans hp).1]
  rw [subtree, isSuffixOf_iff_suffix, htake]
  constructor
  · intro hsuffix
    exact suffix_of_suffix_length_le hsuffix (suffix_append _ _) hlong
  · intro hsuffix
    exact hsuffix.trans (suffix_append _ _)

theorem tries_iff : tries names p.1 p.2 modname = true ↔ Takes (slice names p) modname := by
  have hlength := length_slice hp
  rw [tries, Bool.and_eq_true, Bool.or_eq_true, subtree_iff hp hlong, beq_iff_eq, beq_iff_eq,
    strncmp_eq_zero, ← hlength, Takes]
  have htake : (names.drop p.1).take (slice names p).length = slice names p := by
    rw [hlength]
    rfl
  rw [htake]
  by_cases hsub : underscores <:+ slice names p
  · simp only [hsub, true_or, true_and, if_true]
    exact or_comm
  · simp only [hsub, false_or, if_false]
    constructor
    · rintro ⟨hlen, hstart | hstart⟩
      · exact hstart.eq_of_length hlen
      · exact (hstart.eq_of_length hlen.symm).symm
    · rintro rfl
      exact ⟨rfl, .inl prefix_rfl⟩

end Tries

theorem takes_of_names {a name : Bytes} (h : Names a name) : Takes a name := by
  rw [Names] at h
  rw [Takes]
  split at h
  · rename_i hsub
    exact if_pos hsub ▸ .inl h
  · rename_i hsub
    exact if_neg hsub ▸ h

end Quest.Modules
