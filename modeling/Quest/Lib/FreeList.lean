import Quest.Lib.Tiling

/-! Free blocks in a list, in the order of their addresses and with gaps between them: first fit,
and blocks that are joined with their neighbours when they are given back. -/
namespace Quest.Lib.FreeList

open Tiling List

structure Separated (blocks : List Block) : Prop where
  gaps : blocks.Pairwise fun b c => b.stop < c.base
  filled : ∀ b ∈ blocks, 0 < b.size

variable {b c : Block} {blocks rest xs ys : List Block} {a need : Nat}

theorem separated_nil : Separated [] := ⟨.nil, nofun⟩

theorem separated_cons :
    Separated (b :: blocks) ↔
      0 < b.size ∧ (∀ c ∈ blocks, b.stop < c.base) ∧ Separated blocks := by
  constructor
  · rintro ⟨hgaps, hfill⟩
    obtain ⟨hb, hblocks⟩ := pairwise_cons.mp hgaps
    obtain ⟨hsize, hsizes⟩ := forall_mem_cons.mp hfill
    exact ⟨hsize, hb, hblocks, hsizes⟩
  · rintro ⟨hsize, hb, hblocks, hsizes⟩
    exact ⟨pairwise_cons.mpr ⟨hb, hblocks⟩, forall_mem_cons.mpr ⟨hsize, hsizes⟩⟩

theorem separated_append :
    Separated (xs ++ ys) ↔
      Separated xs ∧ Separated ys ∧ ∀ b ∈ xs, ∀ c ∈ ys, b.stop < c.base := by
  constructor
  · rintro ⟨hgaps, hfill⟩
    obtain ⟨hxs, hys, hacross⟩ := pairwise_append.mp hgaps
    obtain ⟨hxsizes, hysizes⟩ := forall_mem_append.mp hfill
    exact ⟨⟨hxs, hxsizes⟩, ⟨hys, hysizes⟩, hacross⟩
  · rintro ⟨⟨hxs, hxsizes⟩, ⟨hys, hysizes⟩, hacross⟩
    exact ⟨pairwise_append.mpr ⟨hxs, hys, hacross⟩,
      forall_mem_append.mpr ⟨hxsizes, hysizes⟩⟩

theorem Separated.not_adjacent (h : Separated blocks) (hb : b ∈ blocks) (hc : c ∈ blocks) :
    b.stop ≠ c.base := by
  have hsymm : Std.Symm fun b c : Block => b.stop ≠ c.base ∧ c.stop ≠ b.base :=
    ⟨fun _ _ => And.symm⟩
  have hpairs : blocks.Pairwise fun b c => b.stop ≠ c.base ∧ c.stop ≠ b.base := by
    refine h.gaps.imp fun hgap => ?_
    unfold Block.stop at hgap ⊢
    omega
  by_cases hsame : b = c
  · have hsize := h.filled b hb
    rw [← hsame, Block.stop]
    omega
  · exact (hpairs.forall hb hc hsame).1

def carve (need : Nat) : List Block → Option (Nat × List Block)
  | [] => none
  | b :: blocks =>
      if need ≤ b.size then
        some (b.base, if b.size = need then blocks
          else ⟨b.base + need, b.size - need⟩ :: blocks)
      else (carve need blocks).map fun taken => (taken.1, b :: taken.2)

theorem carve_none (h : ∀ b ∈ blocks, b.size < need) : carve need blocks = none := by
  induction blocks with
  | nil => rfl
  | cons b blocks ih =>
    obtain ⟨hb, hblocks⟩ := forall_mem_cons.mp h
    rw [carve, if_neg (not_le.mpr hb), ih hblocks, Option.map_none]

theorem carve_append (h : ∀ b ∈ xs, b.size < need) :
    carve need (xs ++ ys) = (carve need ys).map fun taken => (taken.1, xs ++ taken.2) := by
  induction xs with
  | nil => simp
  | cons b xs ih =>
    obtain ⟨hb, hxs⟩ := forall_mem_cons.mp h
    rw [cons_append, carve, if_neg (not_le.mpr hb), ih hxs, Option.map_map]
    rfl

theorem carve_spec {base : Nat} (h : Separated blocks)
    (hcarve : carve need blocks = some (base, rest)) :
    Separated rest ∧
      (∀ a, cover blocks a = cover rest a + if (Block.mk base need).Covers a then 1 else 0) ∧
      ∀ c ∈ rest, ∃ b ∈ blocks, b.base ≤ c.base := by
  induction blocks generalizing rest with
  | nil => cases hcarve
  | cons b blocks ih =>
    obtain ⟨hsize, hgaps, hblocks⟩ := separated_cons.mp h
    rw [carve] at hcarve
    split at hcarve
    · rename_i hfits
      cases hcarve
      split
      · rename_i hall
        refine ⟨hblocks, fun a => ?_, fun c hc => ⟨c, mem_cons_of_mem b hc, le_rfl⟩⟩
        rw [cover_cons, ← hall]
      · refine ⟨separated_cons.mpr ⟨by dsimp only; omega, ?_, hblocks⟩, fun a => ?_, ?_⟩
        · intro c hc
          have hgap := hgaps c hc
          simp only [Block.stop] at hgap ⊢
          omega
        · have hsplit := cover_split b.base need (b.size - need) a
          rw [Nat.add_sub_cancel' hfits] at hsplit
          rw [cover_cons, cover_cons, hsplit]
          omega
        · intro c hc
          rcases mem_cons.mp hc with rfl | hc
          · exact ⟨b, mem_cons_self, Nat.le_add_right _ _⟩
          · exact ⟨c, mem_cons_of_mem b hc, le_rfl⟩
    · obtain ⟨⟨base', rest'⟩, htaken, heq⟩ := Option.map_eq_some_iff.mp hcarve
      cases heq
      obtain ⟨hrest, hcover, hbase⟩ := ih hblocks htaken
      refine ⟨separated_cons.mpr ⟨hsize, ?_, hrest⟩, fun a => ?_, ?_⟩
      · intro c hc
        obtain ⟨d, hd, hle⟩ := hbase c hc
        exact lt_of_lt_of_le (hgaps d hd) hle
      · rw [cover_cons, cover_cons, hcover a]
        dsimp only
        omega
      · intro c hc
        rcases mem_cons.mp hc with rfl | hc
        · exact ⟨c, mem_cons_self, le_rfl⟩
        · obtain ⟨d, hd, hle⟩ := hbase c hc
          exact ⟨d, mem_cons_of_mem b hd, hle⟩

def join (b c : Block) : Block := ⟨b.base, b.size + c.size⟩

def mergeOnce : List Block → List Block
  | b :: c :: blocks => if b.stop = c.base then join b c :: blocks else b :: c :: blocks
  | blocks => blocks

def merge : List Block → List Block
  | b :: c :: blocks =>
      if b.stop = c.base then mergeOnce (join b c :: blocks)
      else b :: mergeOnce (c :: blocks)
  | blocks => blocks

def release (b : Block) (blocks : List Block) : List Block :=
  let before := blocks.takeWhile fun c => c.base < b.base
  let after := blocks.dropWhile fun c => c.base < b.base
  match before.getLast? with
  | none => merge (b :: after)
  | some c => before.dropLast ++ merge (c :: b :: after)

theorem split_at (hxs : ∀ d ∈ xs, d.base < b.base) (hys : ∀ d ∈ ys.head?, b.base ≤ d.base) :
    (xs ++ ys).takeWhile (fun c => c.base < b.base) = xs ∧
      (xs ++ ys).dropWhile (fun c => c.base < b.base) = ys := by
  have hbelow : ∀ d ∈ xs, decide (d.base < b.base) = true := fun d hd => decide_eq_true (hxs d hd)
  rw [takeWhile_append_of_pos hbelow, dropWhile_append_of_pos hbelow]
  cases ys with
  | nil => simp
  | cons d ys =>
    have hnot : ¬d.base < b.base := not_lt.mpr (hys d rfl)
    simp [hnot]

theorem release_first (h : ∀ d ∈ blocks.head?, b.base ≤ d.base) :
    release b blocks = merge (b :: blocks) := by
  obtain ⟨hbefore, hafter⟩ := split_at (fun d (hd : d ∈ []) => nomatch hd) h
  rw [nil_append] at hbefore hafter
  simp only [release, hbefore, hafter, getLast?_nil]

theorem release_after (hxs : ∀ d ∈ xs ++ [c], d.base < b.base)
    (hys : ∀ d ∈ ys.head?, b.base ≤ d.base) :
    release b (xs ++ c :: ys) = xs ++ merge (c :: b :: ys) := by
  obtain ⟨hbefore, hafter⟩ := split_at hxs hys
  rw [append_assoc, singleton_append] at hbefore hafter
  simp only [release, hbefore, hafter, getLast?_concat, dropLast_concat]

theorem cover_join (hadj : b.stop = c.base) :
    cover (join b c :: blocks) a = cover (b :: c :: blocks) a := by
  obtain ⟨base, size⟩ := b
  obtain ⟨base', size'⟩ := c
  have hbase : base + size = base' := hadj
  have hsplit := cover_split base size size' a
  rw [hbase] at hsplit
  simp only [cover_cons, join, hsplit]
  omega

theorem cover_mergeOnce : cover (mergeOnce blocks) a = cover blocks a := by
  match blocks with
  | [] => rfl
  | [_] => rfl
  | b :: c :: blocks =>
    rw [mergeOnce]
    split
    · rename_i hadj
      exact cover_join hadj
    · rfl

theorem cover_merge : cover (merge blocks) a = cover blocks a := by
  match blocks with
  | [] => rfl
  | [_] => rfl
  | b :: c :: blocks =>
    rw [merge]
    split
    · rename_i hadj
      rw [cover_mergeOnce, cover_join hadj]
    · rw [cover_cons, cover_mergeOnce, ← cover_cons]

theorem release_cases (b : Block) (blocks : List Block) :
    (release b blocks = merge (b :: blocks) ∧ ∀ d ∈ blocks.head?, b.base ≤ d.base) ∨
      ∃ front c after, blocks = front ++ c :: after ∧ (∀ d ∈ front ++ [c], d.base < b.base) ∧
        (∀ d ∈ after.head?, b.base ≤ d.base) ∧
        release b blocks = front ++ merge (c :: b :: after) := by
  have hsplit := takeWhile_append_dropWhile (p := fun c => decide (c.base < b.base))
    (l := blocks)
  have hbefore : ∀ d ∈ blocks.takeWhile fun c => c.base < b.base, d.base < b.base :=
    fun d hd => by simpa using mem_takeWhile_imp hd
  have hafter : ∀ d ∈ (blocks.dropWhile fun c => c.base < b.base).head?, b.base ≤ d.base := by
    intro d hd
    have hnot := head?_dropWhile_not (fun c => decide (c.base < b.base)) blocks
    rw [Option.mem_def.mp hd] at hnot
    simpa using hnot
  rcases eq_nil_or_concat (blocks.takeWhile fun c => decide (c.base < b.base)) with
    hnil | ⟨front, c, hconcat⟩
  · rw [hnil, nil_append] at hsplit
    rw [hsplit] at hafter
    exact .inl ⟨release_first hafter, hafter⟩
  · rw [concat_eq_append] at hconcat
    rw [hconcat] at hsplit hbefore
    rw [append_assoc, singleton_append] at hsplit
    refine .inr ⟨front, c, _, hsplit.symm, hbefore, hafter, ?_⟩
    rw [← release_after hbefore hafter, hsplit]

theorem cover_release : cover (release b blocks) a = cover (b :: blocks) a := by
  rcases release_cases b blocks with ⟨heq, -⟩ | ⟨front, c, after, rfl, -, -, heq⟩
  · rw [heq, cover_merge]
  · rw [heq, cover_append, cover_merge]
    simp only [cover_cons, cover_append]
    omega

theorem mergeOnce_separated (hsize : 0 < b.size) (hb : ∀ c ∈ blocks, b.stop ≤ c.base)
    (h : Separated blocks) :
    Separated (mergeOnce (b :: blocks)) ∧ ∀ c ∈ mergeOnce (b :: blocks), b.base ≤ c.base := by
  cases blocks with
  | nil =>
    refine ⟨separated_cons.mpr ⟨hsize, nofun, separated_nil⟩, fun c hc => ?_⟩
    rw [mem_singleton.mp hc]
  | cons c blocks =>
    obtain ⟨hc, hgaps, hblocks⟩ := separated_cons.mp h
    have hfirst := hb c mem_cons_self
    have hlater : ∀ d ∈ blocks, b.stop < d.base := by
      intro d hd
      have hgap := hgaps d hd
      simp only [Block.stop] at hgap hfirst ⊢
      omega
    rw [mergeOnce]
    split
    · rename_i hadj
      refine ⟨separated_cons.mpr ⟨Nat.add_pos_left hsize _, fun d hd => ?_, hblocks⟩, fun d hd => ?_⟩
      · have hgap := hgaps d hd
        simp only [Block.stop, join] at hgap hadj ⊢
        omega
      · rcases mem_cons.mp hd with rfl | hd
        · exact le_rfl
        · have hgap := hlater d hd
          simp only [Block.stop] at hgap
          omega
    · rename_i happart
      refine ⟨separated_cons.mpr ⟨hsize, fun d hd => ?_, h⟩, fun d hd => ?_⟩
      · rcases mem_cons.mp hd with rfl | hd
        · exact Nat.lt_of_le_of_ne hfirst happart
        · exact hlater d hd
      · rcases mem_cons.mp hd with rfl | hd
        · exact le_rfl
        · have hle := hb d hd
          simp only [Block.stop] at hle
          omega

theorem merge_separated (hc : 0 < c.size) (hb : 0 < b.size) (hleft : c.stop ≤ b.base)
    (hright : ∀ d ∈ blocks, b.stop ≤ d.base) (h : Separated blocks) :
    Separated (merge (c :: b :: blocks)) ∧ ∀ d ∈ merge (c :: b :: blocks), c.base ≤ d.base := by
  rw [merge]
  split
  · rename_i hadj
    apply mergeOnce_separated (Nat.add_pos_left hc _) _ h
    intro d hd
    have hle := hright d hd
    simp only [Block.stop, join] at hle hadj ⊢
    omega
  · rename_i happart
    obtain ⟨hmerged, hbases⟩ := mergeOnce_separated hb hright h
    refine ⟨separated_cons.mpr ⟨hc, fun d hd => ?_, hmerged⟩, fun d hd => ?_⟩
    · exact lt_of_lt_of_le (Nat.lt_of_le_of_ne hleft happart) (hbases d hd)
    · rcases mem_cons.mp hd with rfl | hd
      · exact le_rfl
      · have hle := hbases d hd
        simp only [Block.stop] at hleft
        omega

theorem merge_first_separated (hb : 0 < b.size) (hright : ∀ d ∈ blocks, b.stop ≤ d.base)
    (h : Separated blocks) : Separated (merge (b :: blocks)) := by
  cases blocks with
  | nil => exact separated_cons.mpr ⟨hb, nofun, separated_nil⟩
  | cons d blocks =>
    obtain ⟨hd, hgaps, hblocks⟩ := separated_cons.mp h
    exact (merge_separated hb hd (hright d mem_cons_self)
      (fun e he => (hgaps e he).le) hblocks).1

theorem release_separated (h : Separated blocks) (hb : 0 < b.size)
    (hapart : ∀ c ∈ blocks, c.stop ≤ b.base ∨ b.stop ≤ c.base) :
    Separated (release b blocks) := by
  -- What starts behind `b` also starts behind the end of `b`.
  have hright : ∀ after, (∀ d ∈ after, d ∈ blocks) → Separated after →
      (∀ d ∈ after.head?, b.base ≤ d.base) → ∀ d ∈ after, b.stop ≤ d.base := by
    intro after hsub hafter hhead d hd
    have hbase : b.base ≤ d.base := by
      cases after with
      | nil => cases hd
      | cons e after =>
        have he := hhead e rfl
        rcases mem_cons.mp hd with rfl | hd
        · exact he
        · have hgap := (separated_cons.mp hafter).2.1 d hd
          simp only [Block.stop] at hgap
          omega
    have hsize := h.filled d (hsub d hd)
    rcases hapart d (hsub d hd) with hle | hle
    · simp only [Block.stop] at hle
      omega
    · exact hle
  rcases release_cases b blocks with ⟨heq, hhead⟩ | ⟨front, c, after, rfl, hbefore, hhead, heq⟩
  · rw [heq]
    exact merge_first_separated hb (hright blocks (fun d hd => hd) h hhead) h
  · obtain ⟨hfront, hrest, hacross⟩ := separated_append.mp h
    obtain ⟨hc, hgaps, hafter⟩ := separated_cons.mp hrest
    have hleft : c.stop ≤ b.base := by
      have hbase := hbefore c (by simp)
      rcases hapart c (by simp) with hle | hle
      · exact hle
      · simp only [Block.stop] at hle
        omega
    obtain ⟨hmerged, hbases⟩ := merge_separated hc hb hleft
      (hright after (fun d hd => by simp [hd]) hafter hhead) hafter
    rw [heq]
    refine separated_append.mpr ⟨hfront, hmerged, fun d hd e he => ?_⟩
    exact lt_of_lt_of_le (hacross d hd c mem_cons_self) (hbases e he)

def Multiple (k : Nat) (b : Block) : Prop := k ∣ b.base ∧ k ∣ b.size

variable {k : Nat}

theorem carve_multiple {base : Nat} (hneed : k ∣ need) (h : ∀ b ∈ blocks, Multiple k b)
    (hcarve : carve need blocks = some (base, rest)) :
    k ∣ base ∧ ∀ b ∈ rest, Multiple k b := by
  induction blocks generalizing rest with
  | nil => cases hcarve
  | cons b blocks ih =>
    obtain ⟨hb, hblocks⟩ := forall_mem_cons.mp h
    rw [carve] at hcarve
    split at hcarve
    · cases hcarve
      refine ⟨hb.1, ?_⟩
      split
      · exact hblocks
      · exact forall_mem_cons.mpr ⟨⟨Nat.dvd_add hb.1 hneed, Nat.dvd_sub hb.2 hneed⟩, hblocks⟩
    · obtain ⟨⟨base', rest'⟩, htaken, heq⟩ := Option.map_eq_some_iff.mp hcarve
      cases heq
      obtain ⟨hbase, hrest⟩ := ih hblocks htaken
      exact ⟨hbase, forall_mem_cons.mpr ⟨hb, hrest⟩⟩

theorem Multiple.join (hb : Multiple k b) (hc : Multiple k c) : Multiple k (join b c) :=
  ⟨hb.1, Nat.dvd_add hb.2 hc.2⟩

theorem mergeOnce_multiple (h : ∀ b ∈ blocks, Multiple k b) :
    ∀ b ∈ mergeOnce blocks, Multiple k b := by
  match blocks with
  | [] => exact h
  | [_] => exact h
  | b :: c :: blocks =>
    obtain ⟨hb, hrest⟩ := forall_mem_cons.mp h
    obtain ⟨hc, hblocks⟩ := forall_mem_cons.mp hrest
    rw [mergeOnce]
    split
    · exact forall_mem_cons.mpr ⟨hb.join hc, hblocks⟩
    · exact h

theorem merge_multiple (h : ∀ b ∈ blocks, Multiple k b) : ∀ b ∈ merge blocks, Multiple k b := by
  match blocks with
  | [] => exact h
  | [_] => exact h
  | b :: c :: blocks =>
    obtain ⟨hb, hrest⟩ := forall_mem_cons.mp h
    obtain ⟨hc, hblocks⟩ := forall_mem_cons.mp hrest
    rw [merge]
    split
    · exact mergeOnce_multiple (forall_mem_cons.mpr ⟨hb.join hc, hblocks⟩)
    · exact forall_mem_cons.mpr ⟨hb, mergeOnce_multiple hrest⟩

theorem release_multiple (hb : Multiple k b) (h : ∀ c ∈ blocks, Multiple k c) :
    ∀ c ∈ release b blocks, Multiple k c := by
  rcases release_cases b blocks with ⟨heq, -⟩ | ⟨front, c, after, rfl, -, -, heq⟩
  · rw [heq]
    exact merge_multiple (forall_mem_cons.mpr ⟨hb, h⟩)
  · obtain ⟨hfront, hrest⟩ := forall_mem_append.mp h
    obtain ⟨hc, hafter⟩ := forall_mem_cons.mp hrest
    rw [heq]
    exact forall_mem_append.mpr ⟨hfront, merge_multiple
      (forall_mem_cons.mpr ⟨hc, forall_mem_cons.mpr ⟨hb, hafter⟩⟩)⟩

theorem eq_singleton_of_cover {limit : Nat} (h : Separated blocks) (hlimit : 0 < limit)
    (hcover : ∀ a, cover blocks a = if a < limit then 1 else 0) : blocks = [⟨0, limit⟩] := by
  have hcovered : ∀ a, (∃ b ∈ blocks, b.Covers a) ↔ a < limit := by
    intro a
    rw [← cover_pos, hcover a]
    split <;> simp [*]
  cases blocks with
  | nil =>
    have hzero := (hcovered 0).mpr hlimit
    simp at hzero
  | cons b blocks =>
    obtain ⟨hsize, hgaps, hblocks⟩ := separated_cons.mp h
    have hbase : b.base = 0 := by
      obtain ⟨c, hc, hcovers⟩ := (hcovered 0).mpr hlimit
      rcases mem_cons.mp hc with rfl | hc
      · exact Nat.le_zero.mp hcovers.1
      · have hgap := hgaps c hc
        have hle := hcovers.1
        omega
    have hle : b.stop ≤ limit := by
      have hlast := (hcovered (b.stop - 1)).mp
        ⟨b, mem_cons_self, by simp only [Block.Covers, Block.stop]; omega⟩
      omega
    have hstop : b.stop = limit := by
      apply Nat.le_antisymm hle
      apply Nat.le_of_not_lt
      intro hlt
      obtain ⟨c, hc, hcovers⟩ := (hcovered (b.stop)).mpr hlt
      rcases mem_cons.mp hc with rfl | hc
      · exact absurd hcovers.2 (Nat.lt_irrefl _)
      · exact absurd hcovers.1 (Nat.not_le.mpr (hgaps c hc))
    have hnone : blocks = [] := by
      apply eq_nil_iff_forall_not_mem.mpr
      intro c hc
      have hgap := hgaps c hc
      have hbelow := (hcovered c.base).mp ⟨c, mem_cons_of_mem b hc, Nat.le_refl _,
        Nat.lt_add_of_pos_right (hblocks.filled c hc)⟩
      omega
    rw [hnone]
    simp only [Block.stop, hbase, Nat.zero_add] at hstop
    rw [← hstop, ← hbase]

end Quest.Lib.FreeList
