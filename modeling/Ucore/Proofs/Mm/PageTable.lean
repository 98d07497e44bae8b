import Ucore.Mm.PageTable

/-!
# `Ucore.Proofs.Mm.PageTable`: what the page table functions do

Everything `kern/mm/pmm.c` does to page tables is a sequence of seven moves, `VmStep`: a refused
request, a page taken for a table, a page taken by a caller, an entry that keeps its page, an entry
that gives its page up, an empty entry that gets a page, and a change of page contents. The lemmas
`insertPte_steps`, `pageInsert_steps`, `pageRemove_steps` and `unmapRange_steps` say so for the
functions, and an invariant of the moves is one of the functions.

## The counts

The first such invariant is `RefInv`: a page that some entry maps is not free, and `ref` is the
number of leaf entries that map it; a free page has the count zero; the frame of a table is not
free. `mapCount` counts the entries over all address spaces, and `mapCount_map`, `mapCount_unmap`
and `mapCount_relabel` say how a write to one entry changes it. `RefInv.step` has one case for each
move, and `RefInv.steps` is the induction over a sequence.

`page_insert` raises the count before it removes the old entry. When the entry has the page already,
the two cancel out (`insertPte_same`), and otherwise the order does not matter
(`pageRemovePte_pageRefInc`). So the function is at most two moves.

## Tables

`getPte_create` and `getPte_read` say what `get_pte` does with and without `create`. `Grown`
compares two states of which the second has more tables and the same entries. A `get_pte` that fails
halfway leaves a state of this kind, since the tables that it has made stay.
-/

set_option autoImplicit false

namespace Ucore.Proofs.Mm

open Ucore.Lib
open Ucore.Mm
open Ucore.Mm.Vm

variable {κ : Type} [DecidableEq κ]

/-! ### Leaf entries -/

/-- The page each leaf entry maps. -/
def tgt {κ : Type} (s : Vm κ) : Slot κ → Option Frame := fun x => (s.leaf x).target

/-- An entry maps a page when it is valid and has its number. -/
theorem tgt_eq_some {κ : Type} {s : Vm κ} {x : Slot κ} {p : Frame} :
    tgt s x = some p ↔ (s.leaf x).valid = true ∧ (s.leaf x).ppn = p := Pte.target_eq_some

section Leaf

variable (s : Vm κ) (x : Slot κ)

omit [DecidableEq κ] in
/-- Without a table the entry is read as zero. -/
theorem leaf_of_not_hasTable (h : s.hasTable x = false) : s.leaf x = .zero := by
  unfold hasTable at h
  unfold leaf
  cases hd : s.dirs x.1 x.2.1 with
  | none => rfl
  | some d =>
      rw [hd] at h
      cases ht : d.pde x.2.2.1 with
      | none => simp only [PageDir0.leaf, ht]
      | some t => simp [ht] at h

omit [DecidableEq κ] in
/-- A valid entry lies in a table that exists. -/
theorem hasTable_of_valid (h : (s.leaf x).valid = true) : s.hasTable x = true := by
  cases hx : s.hasTable x with
  | true => rfl
  | false =>
      rw [leaf_of_not_hasTable s x hx, Pte.valid_zero] at h
      cases h

omit [DecidableEq κ] in
/-- An entry that maps a page lies in a table. -/
theorem hasTable_of_tgt {s : Vm κ} {x : Slot κ} {p : Frame} (h : tgt s x = some p) :
    s.hasTable x = true := hasTable_of_valid s x (tgt_eq_some.mp h).1

variable {s x} {e : Pte}

/-- What `*ptep = e` does, for an entry of a table that exists. -/
theorem setLeaf_eq (h : s.hasTable x = true) :
    ∃ d t, s.dirs x.1 x.2.1 = some d ∧ d.pde x.2.2.1 = some t ∧
      s.setLeaf x e = { s.setPde x.1 x.2.1 (d.set x.2.2.1 (t.set x.2.2.2 e)) with
        log := leafEvents (s.leaf x) e ++ s.log } := by
  unfold hasTable at h
  cases hd : s.dirs x.1 x.2.1 with
  | none => rw [hd] at h; cases h
  | some d =>
      rw [hd] at h
      cases ht : d.pde x.2.2.1 with
      | none => simp [ht] at h
      | some t =>
          refine ⟨d, t, rfl, ht, ?_⟩
          simp only [setLeaf, hd, ht]

/-- Without a table there is nothing to write to. -/
theorem setLeaf_of_not_hasTable (h : s.hasTable x = false) : s.setLeaf x e = s := by
  unfold hasTable at h
  unfold setLeaf
  cases hd : s.dirs x.1 x.2.1 with
  | none => rfl
  | some d =>
      rw [hd] at h
      cases ht : d.pde x.2.2.1 with
      | none => simp only [ht]
      | some t => simp [ht] at h

/-- A write to an entry changes that entry and no other. -/
theorem leaf_setLeaf (h : s.hasTable x = true) :
    (s.setLeaf x e).leaf = Function.update s.leaf x e := by
  obtain ⟨d, t, hd, ht, heq⟩ := setLeaf_eq (e := e) h
  rw [heq]
  funext y
  obtain ⟨k, i, j, m⟩ := x
  obtain ⟨k', i', j', m'⟩ := y
  dsimp only at hd ht
  by_cases hk : k' = k
  · subst hk
    by_cases hi : i' = i
    · subst hi
      by_cases hj : j' = j
      · subst hj
        by_cases hm : m' = m
        · subst hm
          simp [leaf, PageDir0.leaf, setPde, PageTable.set]
        · simp [leaf, PageDir0.leaf, setPde, PageTable.set, hm, hd, ht]
      · simp [leaf, PageDir0.leaf, setPde, PageDir0.set_pde_of_ne, hj, hd]
    · simp [leaf, setPde, hi]
  · simp [leaf, setPde, hk]

/-- A write to an entry makes and drops no table. -/
@[simp] theorem hasTable_setLeaf (y : Slot κ) : (s.setLeaf x e).hasTable y = s.hasTable y := by
  cases h : s.hasTable x with
  | false => rw [setLeaf_of_not_hasTable h]
  | true =>
      obtain ⟨d, t, hd, ht, heq⟩ := setLeaf_eq (e := e) h
      rw [heq]
      obtain ⟨k, i, j, m⟩ := x
      obtain ⟨k', i', j', m'⟩ := y
      dsimp only at hd ht
      by_cases hk : k' = k
      · subst hk
        by_cases hi : i' = i
        · subst hi
          by_cases hj : j' = j
          · subst hj
            simp [hasTable, setPde, PageDir0.set, hd, ht]
          · simp [hasTable, setPde, PageDir0.set, hj, hd]
        · simp [hasTable, setPde, hi]
      · simp [hasTable, setPde, hk]

/-- The tables that one entry of a page directory leads to. -/
theorem isTable_setPde {k : κ} {i : Fin 512} {d : PageDir0} {p : Frame} :
    (s.setPde k i d).IsTable p ↔
      (d.frame = p ∨ ∃ j t, d.pde j = some t ∧ t.frame = p) ∨
        ∃ k' i' d', ¬ (k' = k ∧ i' = i) ∧ s.dirs k' i' = some d' ∧
          (d'.frame = p ∨ ∃ j t, d'.pde j = some t ∧ t.frame = p) := by
  have hat : (s.setPde k i d).dirs k i = some d := by simp [setPde]
  have hne : ∀ k' i', ¬ (k' = k ∧ i' = i) → (s.setPde k i d).dirs k' i' = s.dirs k' i' := by
    intro k' i' h
    by_cases hk : k' = k
    · have hi : i' ≠ i := fun hi => h ⟨hk, hi⟩
      subst hk
      simp [setPde, hi]
    · simp [setPde, hk]
  constructor
  · rintro ⟨k', i', d', hd', hp⟩
    by_cases h : k' = k ∧ i' = i
    · obtain ⟨rfl, rfl⟩ := h
      rw [hat] at hd'
      obtain rfl := Option.some.inj hd'
      exact Or.inl hp
    · rw [hne k' i' h] at hd'
      exact Or.inr ⟨k', i', d', h, hd', hp⟩
  · rintro (hp | ⟨k', i', d', h, hd', hp⟩)
    · exact ⟨k, i, d, hat, hp⟩
    · exact ⟨k', i', d', by rw [hne k' i' h]; exact hd', hp⟩

/-- The tables, by whether an entry of a page directory leads to them. -/
theorem isTable_split (s : Vm κ) (k : κ) (i : Fin 512) (p : Frame) :
    s.IsTable p ↔
      (∃ d, s.dirs k i = some d ∧ (d.frame = p ∨ ∃ j t, d.pde j = some t ∧ t.frame = p)) ∨
        ∃ k' i' d', ¬ (k' = k ∧ i' = i) ∧ s.dirs k' i' = some d' ∧
          (d'.frame = p ∨ ∃ j t, d'.pde j = some t ∧ t.frame = p) := by
  constructor
  · rintro ⟨k', i', d', hd', hp⟩
    by_cases h : k' = k ∧ i' = i
    · obtain ⟨rfl, rfl⟩ := h
      exact Or.inl ⟨d', hd', hp⟩
    · exact Or.inr ⟨k', i', d', h, hd', hp⟩
  · rintro (⟨d, hd, hp⟩ | ⟨k', i', d', -, hd', hp⟩)
    · exact ⟨k, i, d, hd, hp⟩
    · exact ⟨k', i', d', hd', hp⟩

/-- The frames of the tables below a middle-level table after one of its entries changed. -/
theorem exists_table_set {d : PageDir0} {j : Fin 512} {t : PageTable} {p : Frame} :
    (∃ j' t', (d.set j t).pde j' = some t' ∧ t'.frame = p) ↔
      t.frame = p ∨ ∃ j' t', j' ≠ j ∧ d.pde j' = some t' ∧ t'.frame = p := by
  constructor
  · rintro ⟨j', t', ht', hp⟩
    by_cases hj : j' = j
    · subst hj
      rw [PageDir0.set_pde_self] at ht'
      obtain rfl := Option.some.inj ht'
      exact Or.inl hp
    · rw [PageDir0.set_pde_of_ne d t hj] at ht'
      exact Or.inr ⟨j', t', hj, ht', hp⟩
  · rintro (hp | ⟨j', t', hj, ht', hp⟩)
    · exact ⟨j, t, d.set_pde_self j t, hp⟩
    · exact ⟨j', t', (d.set_pde_of_ne t hj).trans ht', hp⟩

/-- Writing an entry moves no table. -/
@[simp] theorem isTable_setLeaf (p : Frame) : (s.setLeaf x e).IsTable p ↔ s.IsTable p := by
  cases h : s.hasTable x with
  | false => rw [setLeaf_of_not_hasTable h]
  | true =>
      obtain ⟨d, t, hd, ht, heq⟩ := setLeaf_eq (e := e) h
      rw [heq]
      show (s.setPde x.1 x.2.1 (d.set x.2.2.1 (t.set x.2.2.2 e))).IsTable p ↔ _
      rw [isTable_setPde, isTable_split s x.1 x.2.1 p, exists_table_set]
      have hold : (∃ j' t', d.pde j' = some t' ∧ t'.frame = p) ↔
          t.frame = p ∨ ∃ j' t', j' ≠ x.2.2.1 ∧ d.pde j' = some t' ∧ t'.frame = p := by
        constructor
        · rintro ⟨j', t', ht', hp⟩
          by_cases hj : j' = x.2.2.1
          · subst hj
            rw [ht] at ht'
            obtain rfl := Option.some.inj ht'
            exact Or.inl hp
          · exact Or.inr ⟨j', t', hj, ht', hp⟩
        · rintro (hp | ⟨j', t', -, ht', hp⟩)
          · exact ⟨_, t, ht, hp⟩
          · exact ⟨j', t', ht', hp⟩
      simp only [hd, Option.some.injEq, exists_eq_left', hold]
      rfl

/-- A write to an entry logs the page that is mapped no longer, and the page that is now. -/
theorem log_setLeaf (h : s.hasTable x = true) :
    (s.setLeaf x e).log = leafEvents (s.leaf x) e ++ s.log := by
  obtain ⟨d, t, -, -, heq⟩ := setLeaf_eq (e := e) h
  rw [heq]

/-- A write to an entry changes what that entry maps, and no other. -/
theorem tgt_setLeaf (h : s.hasTable x = true) :
    tgt (s.setLeaf x e) = Function.update (tgt s) x e.target := by
  funext y
  unfold tgt
  rw [leaf_setLeaf h]
  by_cases hy : y = x
  · subst hy
    simp
  · simp [hy]

/-- What an entry does not hold stays. -/
theorem setLeaf_frame (s : Vm κ) (x : Slot κ) (e : Pte) :
    (s.setLeaf x e).free = s.free ∧ (s.setLeaf x e).ref = s.ref ∧
      (s.setLeaf x e).data = s.data ∧ (s.setLeaf x e).requests = s.requests ∧
      (s.setLeaf x e).refused = s.refused := by
  unfold setLeaf
  split
  · exact ⟨rfl, rfl, rfl, rfl, rfl⟩
  · split
    · exact ⟨rfl, rfl, rfl, rfl, rfl⟩
    · exact ⟨rfl, rfl, rfl, rfl, rfl⟩

end Leaf

/-! ### The record of events -/

/-- The number of leaf entries that map `p` after the events, newest first. -/
def mappings : List PageEvent → Frame → Nat
  | [], _ => 0
  | .map q :: l, p => mappings l p + if q = p then 1 else 0
  | .unmap q :: l, p => mappings l p - if q = p then 1 else 0
  | .alloc _ :: l, p => mappings l p
  | .free _ :: l, p => mappings l p

/-- The page is in somebody's hands after the events, newest first. -/
def held : List PageEvent → Frame → Bool
  | [], _ => false
  | .alloc q :: l, p => q == p || held l p
  | .free q :: l, p => q != p && held l p
  | .map _ :: l, p => held l p
  | .unmap _ :: l, p => held l p

/-- Behind `alloc_page` the page is held, besides those held before. -/
theorem held_alloc {l : List PageEvent} {p q : Frame} :
    held (.alloc p :: l) q = true ↔ p = q ∨ held l q = true := by
  simp [held]

/-! ### The moves -/

/-- The allocator said no. -/
def refuse (s : Vm κ) : Vm κ := { s with requests := s.requests + 1, refused := true }

/-- The allocator gave the page `p` away. -/
def grab (s : Vm κ) (p : Frame) : Vm κ :=
  { s with
      requests := s.requests + 1
      free := Function.update s.free p false
      log := .alloc p :: s.log }

omit [DecidableEq κ] in
/-- The answers of the allocator. -/
theorem allocPage_cases (e : PageOracle) (s : Vm κ) :
    allocPage e s = (none, refuse s) ∨
      ∃ p, s.free p = true ∧ allocPage e s = (some p, grab s p) := by
  unfold allocPage
  cases h : e.pick s.requests s.free with
  | none => exact Or.inl rfl
  | some p => exact Or.inr ⟨p, e.pick_free h, rfl⟩

/-- The page `p` is mapped by the empty entry `x`. -/
def mapPte (s : Vm κ) (x : Slot κ) (p : Frame) (perm : PteFlags) : Vm κ :=
  (s.pageRefInc p).setLeaf x (pteCreate p perm)

/-- The free page `p` becomes an empty table. -/
structure TableStep (s s' : Vm κ) (p : Frame) : Prop where
  wasFree : s.free p = true
  free : s'.free = Function.update s.free p false
  ref : s'.ref = Function.update s.ref p 1
  data : s'.data = s.data
  refused : s'.refused = s.refused
  log : s'.log = .alloc p :: s.log
  leaf : s'.leaf = s.leaf
  hasTable : ∀ x, s.hasTable x = true → s'.hasTable x = true
  isTable : ∀ q, s'.IsTable q ↔ q = p ∨ s.IsTable q

section Counting

variable [Fintype κ]

/-- The number of leaf entries that map a page. -/
def mapCount (s : Vm κ) (p : Frame) : Nat := fiberCard (tgt s) p

/-- A page that is mapped, or in the hands of a caller, and whose `ref` counts its
mappings. -/
structure Counted (s : Vm κ) (p : Frame) : Prop where
  notFree : s.free p = false
  notTable : ¬ s.IsTable p
  ref : s.ref p = mapCount s p
  owned : 0 < mapCount s p ∨ held s.log p = true

/-- What the page table functions do, one at a time. -/
inductive VmStep : Vm κ → Vm κ → Prop
  | refuse (s : Vm κ) : VmStep s (refuse s)
  | table {s s' : Vm κ} {p : Frame} : TableStep s s' p → VmStep s s'
  | take {s : Vm κ} {p : Frame} : s.free p = true → VmStep s (grab s p)
  | relabel {s : Vm κ} {x : Slot κ} {e : Pte} : s.hasTable x = true →
      e.target = (s.leaf x).target → VmStep s (s.setLeaf x e)
  | unmap {s : Vm κ} {x : Slot κ} {p : Frame} : tgt s x = some p → VmStep s (pageRemovePte s x)
  | map {s : Vm κ} {x : Slot κ} {p : Frame} (perm : PteFlags) : s.hasTable x = true →
      tgt s x = none → Counted s p → VmStep s (mapPte s x p perm)
  | copy (s : Vm κ) (dst src : Frame) : VmStep s (s.copyPage dst src)

/-- Any number of moves. -/
abbrev VmSteps : Vm κ → Vm κ → Prop := Relation.ReflTransGen VmStep

end Counting

/-- What `page_remove_pte` does to the entry `x` that maps the page `p`. -/
structure Removed (s s' : Vm κ) (x : Slot κ) (p : Frame) : Prop where
  leaf : s'.leaf = Function.update s.leaf x .zero
  data : s'.data = s.data
  refused : s'.refused = s.refused
  hasTable : ∀ y, s'.hasTable y = s.hasTable y
  isTable : ∀ q, s'.IsTable q ↔ s.IsTable q
  last : s.ref p = 1 → s'.free = Function.update s.free p true ∧
    s'.ref = Function.update s.ref p 0 ∧ s'.log = .unmap p :: .free p :: s.log
  notLast : s.ref p ≠ 1 → s'.free = s.free ∧
    s'.ref = Function.update s.ref p (s.ref p - 1) ∧ s'.log = .unmap p :: s.log

/-- Clearing an entry that maps a page logs the end of that mapping. -/
theorem leafEvents_zero {e : Pte} {p : Frame} (h : e.target = some p) :
    leafEvents e .zero = [.unmap p] := by
  simp [leafEvents, h]

/-- `page_remove_pte` clears a valid entry, lowers the count of its page, and frees the page when
the count has fallen to zero. -/
theorem pageRemovePte_spec {s : Vm κ} {x : Slot κ} {p : Frame} (h : tgt s x = some p) :
    Removed s (pageRemovePte s x) x p := by
  have htab := hasTable_of_tgt h
  obtain ⟨hv, hp⟩ := tgt_eq_some.mp h
  have hev : leafEvents (s.leaf x) .zero = [.unmap p] := leafEvents_zero h
  -- The state before the entry is cleared.
  have heq : pageRemovePte s x =
      (if (s.pageRefDec p).ref p = 0 then freePage (s.pageRefDec p) p
        else s.pageRefDec p).setLeaf x .zero := by
    simp only [pageRemovePte, hv, if_true, hp]
  have hval : (s.pageRefDec p).ref p = s.ref p - 1 := by
    simp [pageRefDec, setPageRef]
  rw [heq]
  by_cases hone : s.ref p = 1
  · rw [if_pos (by omega)]
    have htab' : (freePage (s.pageRefDec p) p).hasTable x = true := htab
    obtain ⟨hf, hr, hd, -, hre⟩ := setLeaf_frame (freePage (s.pageRefDec p) p) x .zero
    refine ⟨leaf_setLeaf htab', hd, hre, fun y => hasTable_setLeaf y,
      fun q => isTable_setLeaf q, fun _ => ⟨hf, ?_, ?_⟩, fun hne => absurd hone hne⟩
    · rw [hr]
      show Function.update (Function.update s.ref p _) p 0 = _
      rw [Function.update_idem]
    · rw [log_setLeaf htab']
      show leafEvents (s.leaf x) .zero ++ _ = _
      rw [hev]
      rfl
  · rw [if_neg (by omega)]
    have htab' : (s.pageRefDec p).hasTable x = true := htab
    obtain ⟨hf, hr, hd, -, hre⟩ := setLeaf_frame (s.pageRefDec p) x .zero
    refine ⟨leaf_setLeaf htab', hd, hre, fun y => hasTable_setLeaf y,
      fun q => isTable_setLeaf q, fun h1 => absurd h1 hone, fun _ => ⟨hf, hr, ?_⟩⟩
    rw [log_setLeaf htab']
    show leafEvents (s.leaf x) .zero ++ _ = _
    rw [hev]
    rfl

/-- The entry maps nothing any more, and the others map what they did. -/
theorem Removed.tgt {s s' : Vm κ} {x : Slot κ} {p : Frame} (h : Removed s s' x p) :
    tgt s' = Function.update (tgt s) x none := by
  funext y
  unfold Ucore.Proofs.Mm.tgt
  rw [h.leaf]
  by_cases hy : y = x
  · subst hy
    simp
  · simp [hy]

/-- What mapping the page `p` at the empty entry `x` does. -/
structure Mapped (s s' : Vm κ) (x : Slot κ) (p : Frame) (perm : PteFlags) : Prop where
  leaf : s'.leaf = Function.update s.leaf x (pteCreate p perm)
  tgt : tgt s' = Function.update (tgt s) x (some p)
  free : s'.free = s.free
  ref : s'.ref = Function.update s.ref p (s.ref p + 1)
  data : s'.data = s.data
  refused : s'.refused = s.refused
  hasTable : ∀ y, s'.hasTable y = s.hasTable y
  isTable : ∀ q, s'.IsTable q ↔ s.IsTable q
  log : s'.log = .map p :: s.log

/-- An empty entry maps the page, whose count has grown by one. -/
theorem mapPte_spec {s : Vm κ} {x : Slot κ} (ht : s.hasTable x = true) (hn : tgt s x = none)
    (p : Frame) (perm : PteFlags) : Mapped s (mapPte s x p perm) x p perm := by
  have ht' : (s.pageRefInc p).hasTable x = true := ht
  have hev : leafEvents (s.leaf x) (pteCreate p perm) = [.map p] := by
    have hold : (s.leaf x).target = none := hn
    simp [leafEvents, hold]
  obtain ⟨hf, hr, hd, -, hre⟩ := setLeaf_frame (s.pageRefInc p) x (pteCreate p perm)
  refine ⟨leaf_setLeaf ht', ?_, hf, hr, hd, hre, fun y => hasTable_setLeaf y,
    fun q => isTable_setLeaf (s := s.pageRefInc p) q, ?_⟩
  · rw [mapPte, tgt_setLeaf ht', target_pteCreate]
    rfl
  · rw [mapPte, log_setLeaf ht']
    show leafEvents (s.leaf x) _ ++ s.log = _
    rw [hev]
    rfl

/-! ### The reference counts -/

section Counts

variable [Fintype κ] {s s' : Vm κ} {x : Slot κ} {p q : Frame}

/-- The count of a page whose entry `x` goes. -/
theorem mapCount_unmap (ht : tgt s x = some p) (h : tgt s' = Function.update (tgt s) x none)
    (q : Frame) : mapCount s' q + (if p = q then 1 else 0) = mapCount s q := by
  have hcard := fiberCard_update (tgt s) x none q
  rw [ht] at hcard
  simpa [mapCount, h] using hcard

/-- The count of a page that the empty entry `x` gets. -/
theorem mapCount_map (ht : tgt s x = none) (h : tgt s' = Function.update (tgt s) x (some p))
    (q : Frame) : mapCount s' q = mapCount s q + (if p = q then 1 else 0) := by
  have hcard := fiberCard_update (tgt s) x (some p) q
  rw [ht] at hcard
  simpa [mapCount, h] using hcard

omit [DecidableEq κ] in
/-- A page has a count above zero when some entry maps it. -/
theorem mapCount_pos_iff : 0 < mapCount s p ↔ ∃ x, tgt s x = some p := fiberCard_pos_iff

omit [DecidableEq κ] in
/-- The number of entries that map a page depends on the entries only. -/
theorem mapCount_congr (h : s'.leaf = s.leaf) (q : Frame) : mapCount s' q = mapCount s q := by
  have ht : tgt s' = tgt s := by funext y; unfold tgt; rw [h]
  rw [mapCount, mapCount, ht]

/-- New flags for the same page leave the counts as they are. -/
theorem mapCount_relabel {e : Pte} (ht : s.hasTable x = true)
    (he : e.target = (s.leaf x).target) (q : Frame) :
    mapCount (s.setLeaf x e) q = mapCount s q := by
  have heq : tgt (s.setLeaf x e) = tgt s := by
    rw [tgt_setLeaf ht, he]
    exact Function.update_eq_self x (tgt s)
  rw [mapCount, mapCount, heq]

omit [Fintype κ] in
/-- New flags for the same page are no event. -/
theorem log_relabel {e : Pte} (ht : s.hasTable x = true) (he : e.target = (s.leaf x).target) :
    (s.setLeaf x e).log = s.log := by
  rw [log_setLeaf ht, leafEvents, if_pos he.symm]
  rfl

/-- `ref` is exact: every mapped page is counted, a free page has `ref` zero, and no table
is free. -/
structure RefInv (s : Vm κ) : Prop where
  mapped : ∀ p, 0 < mapCount s p → Counted s p
  freeRef : ∀ p, s.free p = true → s.ref p = 0
  tables : ∀ p, s.IsTable p → s.free p = false

omit [DecidableEq κ] in
/-- A free page is not mapped. -/
theorem RefInv.mapCount_of_free (h : RefInv s) (hp : s.free p = true) : mapCount s p = 0 := by
  by_contra hne
  have hc := (h.mapped p (by omega)).notFree
  rw [hp] at hc
  cases hc

/-- A counted page stays counted until it is freed, and then nothing maps it. -/
theorem Counted.step (h : VmStep s s') (hc : Counted s q) :
    Counted s' q ∨ (s'.free q = true ∧ mapCount s' q = 0) := by
  have hkeep : s'.free q = s.free q → (s'.IsTable q ↔ s.IsTable q) → s'.ref q = s.ref q →
      mapCount s' q = mapCount s q → (held s.log q = true → held s'.log q = true) →
      Counted s' q := by
    intro hf ht hr hm hh
    exact ⟨hf.trans hc.notFree, fun h => hc.notTable (ht.mp h), by rw [hr, hm]; exact hc.ref,
      by rw [hm]; exact hc.owned.imp_right hh⟩
  -- The page a move takes was free, and the counted page is not.
  have hfresh : ∀ p, s.free p = true → q ≠ p := by
    rintro p hp rfl
    have hf := hc.notFree
    rw [hp] at hf
    cases hf
  cases h with
  | refuse => exact Or.inl (hkeep rfl Iff.rfl rfl rfl id)
  | @table _ p h =>
      have hqp := hfresh p h.wasFree
      left
      apply hkeep
      · rw [h.free, Function.update_of_ne hqp]
      · rw [h.isTable]
        exact or_iff_right hqp
      · rw [h.ref, Function.update_of_ne hqp]
      · exact mapCount_congr h.leaf q
      · rw [h.log]
        exact fun hh => held_alloc.mpr (Or.inr hh)
  | @take p hp =>
      have hqp := hfresh p hp
      exact Or.inl (hkeep (Function.update_of_ne hqp _ _) Iff.rfl rfl rfl
        fun hh => held_alloc.mpr (Or.inr hh))
  | @relabel x e ht he =>
      obtain ⟨hf, hr, -, -, -⟩ := setLeaf_frame s x e
      have hlog := log_relabel ht he
      exact Or.inl (hkeep (congrFun hf q) (isTable_setLeaf q) (congrFun hr q)
        (mapCount_relabel ht he q) (by rw [hlog]; exact id))
  | @unmap x p hp =>
      have hspec := pageRemovePte_spec hp
      have hcount := mapCount_unmap hp hspec.tgt q
      by_cases hqp : p = q
      · subst hqp
        rw [if_pos rfl] at hcount
        have href := hc.ref
        by_cases hone : s.ref p = 1
        · right
          obtain ⟨hf, -, -⟩ := hspec.last hone
          exact ⟨by rw [hf, Function.update_self], by omega⟩
        · left
          obtain ⟨hf, hr, -⟩ := hspec.notLast hone
          refine ⟨by rw [hf]; exact hc.notFree, fun h => hc.notTable ((hspec.isTable p).mp h), ?_,
            Or.inl (by omega)⟩
          rw [hr, Function.update_self]
          omega
      · left
        rw [if_neg hqp] at hcount
        have hne : q ≠ p := Ne.symm hqp
        apply hkeep _ (hspec.isTable q) _ hcount
        · by_cases hone : s.ref p = 1
          · rw [(hspec.last hone).2.2]
            intro hh
            show (p != q && held s.log q) = true
            rw [hh, Bool.and_true]
            exact bne_iff_ne.mpr hqp
          · rw [(hspec.notLast hone).2.2]
            exact id
        · by_cases hone : s.ref p = 1
          · rw [(hspec.last hone).1, Function.update_of_ne hne]
          · rw [(hspec.notLast hone).1]
        · by_cases hone : s.ref p = 1
          · rw [(hspec.last hone).2.1, Function.update_of_ne hne]
          · rw [(hspec.notLast hone).2.1, Function.update_of_ne hne]
  | @map x p perm ht hn hp =>
      left
      have hspec := mapPte_spec ht hn p perm
      have hcount := mapCount_map hn hspec.tgt q
      by_cases hqp : p = q
      · subst hqp
        rw [if_pos rfl] at hcount
        refine ⟨by rw [hspec.free]; exact hc.notFree, fun h => hc.notTable ((hspec.isTable p).mp h),
          ?_, Or.inl (by omega)⟩
        rw [hspec.ref, hcount, Function.update_self, hc.ref]
        push_cast
        rfl
      · rw [if_neg hqp, Nat.add_zero] at hcount
        apply hkeep (congrFun hspec.free q) (hspec.isTable q) _ hcount
        · rw [hspec.log]
          exact id
        · rw [hspec.ref, Function.update_of_ne (Ne.symm hqp)]
  | copy => exact Or.inl (hkeep rfl Iff.rfl rfl rfl id)

/-- The reference counts stay exact. -/
theorem RefInv.step (h : VmStep s s') (hi : RefInv s) : RefInv s' := by
  -- A page mapped after a move was counted before it.
  have hbefore : ∀ q, 0 < mapCount s' q → Counted s q := by
    intro q hq
    cases h with
    | refuse => exact hi.mapped q hq
    | @table _ p h => exact hi.mapped q (by rwa [← mapCount_congr h.leaf q])
    | take => exact hi.mapped q hq
    | @relabel x e ht he => exact hi.mapped q (by rwa [← mapCount_relabel ht he q])
    | @unmap x p hp =>
        have hcount := mapCount_unmap hp (pageRemovePte_spec hp).tgt q
        exact hi.mapped q (by omega)
    | @map x p perm ht hn hp =>
        have hcount := mapCount_map hn (mapPte_spec ht hn p perm).tgt q
        by_cases hqp : p = q
        · exact hqp ▸ hp
        · rw [if_neg hqp] at hcount
          exact hi.mapped q (by omega)
    | copy => exact hi.mapped q hq
  constructor
  · intro q hq
    rcases (hbefore q hq).step h with hc | ⟨-, hzero⟩
    · exact hc
    · omega
  -- A page on the free list has the count 0. Only the last `page_remove_pte` frees one, at that
  -- count.
  · intro q hq
    cases h with
    | refuse => exact hi.freeRef q hq
    | @table _ p h =>
        rw [h.free] at hq
        by_cases hqp : q = p
        · rw [hqp, Function.update_self] at hq
          cases hq
        · rw [Function.update_of_ne hqp] at hq
          rw [h.ref, Function.update_of_ne hqp]
          exact hi.freeRef q hq
    | @take p hp =>
        by_cases hqp : q = p
        · exact hqp ▸ hi.freeRef p hp
        · have hq' : Function.update s.free p false q = true := hq
          rw [Function.update_of_ne hqp] at hq'
          exact hi.freeRef q hq'
    | @relabel x e ht he =>
        obtain ⟨hf, hr, -, -, -⟩ := setLeaf_frame s x e
        rw [hf] at hq
        rw [hr]
        exact hi.freeRef q hq
    | @unmap x p hp =>
        have hspec := pageRemovePte_spec hp
        by_cases hone : s.ref p = 1
        · obtain ⟨hf, hr, -⟩ := hspec.last hone
          rw [hr]
          by_cases hqp : q = p
          · rw [hqp, Function.update_self]
          · rw [Function.update_of_ne hqp]
            rw [hf, Function.update_of_ne hqp] at hq
            exact hi.freeRef q hq
        · obtain ⟨hf, hr, -⟩ := hspec.notLast hone
          rw [hf] at hq
          have hpf := (hi.mapped p (mapCount_pos_iff.mpr ⟨x, hp⟩)).notFree
          have hqp : q ≠ p := by
            rintro rfl
            rw [hq] at hpf
            cases hpf
          rw [hr, Function.update_of_ne hqp]
          exact hi.freeRef q hq
    | @map x p perm ht hn hp =>
        have hspec := mapPte_spec ht hn p perm
        rw [hspec.free] at hq
        have hqp : q ≠ p := by
          rintro rfl
          have hpf := hp.notFree
          rw [hq] at hpf
          cases hpf
        rw [hspec.ref, Function.update_of_ne hqp]
        exact hi.freeRef q hq
    | copy => exact hi.freeRef q hq
  -- A page that holds a table is not on the free list.
  · intro q hq
    cases h with
    | refuse => exact hi.tables q hq
    | @table _ p h =>
        rw [h.free]
        by_cases hqp : q = p
        · rw [hqp, Function.update_self]
        · rw [Function.update_of_ne hqp]
          exact hi.tables q (((h.isTable q).mp hq).resolve_left hqp)
    | @take p hp =>
        show Function.update s.free p false q = false
        by_cases hqp : q = p
        · rw [hqp, Function.update_self]
        · rw [Function.update_of_ne hqp]
          exact hi.tables q hq
    | @relabel x e ht he =>
        obtain ⟨hf, -⟩ := setLeaf_frame s x e
        rw [hf]
        exact hi.tables q ((isTable_setLeaf q).mp hq)
    | @unmap x p hp =>
        have hspec := pageRemovePte_spec hp
        have hqt := (hspec.isTable q).mp hq
        have hqp : q ≠ p := by
          rintro rfl
          exact (hi.mapped q (mapCount_pos_iff.mpr ⟨x, hp⟩)).notTable hqt
        by_cases hone : s.ref p = 1
        · rw [(hspec.last hone).1, Function.update_of_ne hqp]
          exact hi.tables q hqt
        · rw [(hspec.notLast hone).1]
          exact hi.tables q hqt
    | @map x p perm ht hn hp =>
        have hspec := mapPte_spec ht hn p perm
        rw [hspec.free]
        exact hi.tables q ((hspec.isTable q).mp hq)
    | copy => exact hi.tables q hq

/-- The counts stay right over any number of steps. -/
theorem RefInv.steps (h : VmSteps s s') (hi : RefInv s) : RefInv s' := by
  induction h with
  | refl => exact hi
  | tail _ hs ih => exact ih.step hs

end Counts

/-! ### `get_pte` -/

/-- A directory whose entries read as before leaves every entry of the table as it was. -/
theorem leaf_setPde (s : Vm κ) (k : κ) (i : Fin 512) (d : PageDir0) (y : Slot κ)
    (h : y.1 = k → y.2.1 = i → d.leaf y.2.2.1 y.2.2.2 = s.leaf y) :
    (s.setPde k i d).leaf y = s.leaf y := by
  obtain ⟨k', i', j', m'⟩ := y
  by_cases hk : k' = k
  · subst hk
    by_cases hi : i' = i
    · subst hi
      rw [← h rfl rfl]
      simp [leaf, setPde]
    · simp [leaf, setPde, hi]
  · simp [leaf, setPde, hk]

/-- A directory that has the tables of the one before drops none. -/
theorem hasTable_setPde (s : Vm κ) (k : κ) (i : Fin 512) (d : PageDir0) (y : Slot κ)
    (h : y.1 = k → y.2.1 = i → (d.pde y.2.2.1).isSome = true) (hy : s.hasTable y = true) :
    (s.setPde k i d).hasTable y = true := by
  obtain ⟨k', i', j', m'⟩ := y
  by_cases hk : k' = k
  · subst hk
    by_cases hi : i' = i
    · subst hi
      simpa [hasTable, setPde] using h rfl rfl
    · simpa [hasTable, setPde, hi] using hy
  · simpa [hasTable, setPde, hk] using hy

/-- The free page `p` becomes the middle-level table of an empty directory entry. -/
theorem tableStep_pde1 {s : Vm κ} {k : κ} {i : Fin 512} {p : Frame} (hp : s.free p = true)
    (hd : s.dirs k i = none) :
    TableStep s (((grab s p).setPageRef p 1).setPde k i ⟨p, fun _ => none⟩) p where
  wasFree := hp
  free := rfl
  ref := rfl
  data := rfl
  refused := rfl
  log := rfl
  leaf := by
    funext y
    apply leaf_setPde
    intro hk hi
    have hnone : s.leaf y = .zero := by
      unfold leaf
      rw [hk, hi, hd]
    exact hnone.symm
  hasTable := by
    intro y hy
    apply hasTable_setPde ((grab s p).setPageRef p 1) k i _ y _ hy
    intro hk hi
    unfold Vm.hasTable at hy
    rw [hk, hi, hd] at hy
    cases hy
  isTable := by
    intro q
    rw [isTable_setPde, isTable_split s k i q]
    have hno : ¬ ∃ d, s.dirs k i = some d ∧
        (d.frame = q ∨ ∃ j t, d.pde j = some t ∧ t.frame = q) := by
      rintro ⟨d, hd', -⟩
      rw [hd] at hd'
      cases hd'
    have hnew : (p = q ∨ ∃ (j : Fin 512) (t : PageTable), (none : Option PageTable) = some t ∧
        t.frame = q) ↔ q = p := by
      constructor
      · rintro (h | ⟨j, t, h, -⟩)
        · exact h.symm
        · cases h
      · exact fun h => Or.inl h.symm
    show ((p = q ∨ ∃ (j : Fin 512) (t : PageTable), none = some t ∧ t.frame = q) ∨ _) ↔ _
    rw [hnew, or_iff_right hno]
    rfl

/-- The free page `p` becomes a last-level table at an empty middle-level entry. -/
theorem tableStep_pde0 {s : Vm κ} {k : κ} {i j : Fin 512} {d : PageDir0} {p : Frame}
    (hp : s.free p = true) (hd : s.dirs k i = some d) (hj : d.pde j = none) :
    TableStep s (((grab s p).setPageRef p 1).setPde k i (d.set j ⟨p, fun _ => .zero⟩)) p where
  wasFree := hp
  free := rfl
  ref := rfl
  data := rfl
  refused := rfl
  log := rfl
  -- The new table is empty, and no table was there before, so that no entry becomes another one.
  leaf := by
    funext y
    apply leaf_setPde
    intro hk hi
    have hold : s.leaf y = d.leaf y.2.2.1 y.2.2.2 := by
      unfold Vm.leaf
      rw [hk, hi, hd]
    show _ = s.leaf y
    rw [hold, PageDir0.leaf, PageDir0.leaf]
    by_cases hyj : y.2.2.1 = j
    · rw [hyj, hj, PageDir0.set_pde_self]
    · rw [PageDir0.set_pde_of_ne d _ hyj]
  hasTable := by
    intro y hy
    apply hasTable_setPde ((grab s p).setPageRef p 1) k i _ y _ hy
    intro hk hi
    by_cases hyj : y.2.2.1 = j
    · rw [hyj, PageDir0.set_pde_self]
      rfl
    · rw [PageDir0.set_pde_of_ne d _ hyj]
      unfold Vm.hasTable at hy
      rw [hk, hi, hd] at hy
      exact hy
  -- The pages that hold tables: the old ones and `p`.
  isTable := by
    intro q
    rw [isTable_setPde, isTable_split s k i q, exists_table_set]
    have hold : (∃ j' t', j' ≠ j ∧ d.pde j' = some t' ∧ t'.frame = q) ↔
        ∃ j' t', d.pde j' = some t' ∧ t'.frame = q := by
      constructor
      · rintro ⟨j', t', -, ht, hq⟩
        exact ⟨j', t', ht, hq⟩
      · rintro ⟨j', t', ht, hq⟩
        refine ⟨j', t', ?_, ht, hq⟩
        rintro rfl
        rw [hj] at ht
        cases ht
    simp only [hd, Option.some.injEq, exists_eq_left', hold, PageDir0.set_frame]
    show (d.frame = q ∨ p = q ∨ _) ∨ _ ↔ _
    constructor
    · rintro ((h | h | h) | h)
      · exact Or.inr (Or.inl (Or.inl h))
      · exact Or.inl h.symm
      · exact Or.inr (Or.inl (Or.inr h))
      · exact Or.inr (Or.inr h)
    · rintro (h | (h | h) | h)
      · exact Or.inl (Or.inr (Or.inl h.symm))
      · exact Or.inl (Or.inl h)
      · exact Or.inl (Or.inr (Or.inr h))
      · exact Or.inr h

section Grown

variable [Fintype κ] {s t u : Vm κ}

/-- What a walk that creates tables changes: it takes free pages, and nothing else. -/
structure Grown (s s' : Vm κ) : Prop where
  steps : VmSteps s s'
  leaf : s'.leaf = s.leaf
  data : s'.data = s.data
  hasTable : ∀ x, s.hasTable x = true → s'.hasTable x = true
  refused : s.refused = true → s'.refused = true
  held : ∀ p, held s.log p = true → Ucore.Proofs.Mm.held s'.log p = true
  kept : ∀ p, s.free p = false →
    s'.free p = false ∧ s'.ref p = s.ref p ∧ (s'.IsTable p ↔ s.IsTable p)

/-- Nothing has been added. -/
theorem Grown.refl (s : Vm κ) : Grown s s :=
  ⟨.refl, rfl, rfl, fun _ h => h, fun h => h, fun _ h => h, fun _ h => ⟨h, rfl, Iff.rfl⟩⟩

/-- One more table after another. -/
theorem Grown.trans (h : Grown s t) (h' : Grown t u) : Grown s u where
  steps := h.steps.trans h'.steps
  leaf := h'.leaf.trans h.leaf
  data := h'.data.trans h.data
  hasTable := fun x hx => h'.hasTable x (h.hasTable x hx)
  refused := fun hr => h'.refused (h.refused hr)
  held := fun p hp => h'.held p (h.held p hp)
  kept := fun p hp => by
    obtain ⟨hf, hr, ht⟩ := h.kept p hp
    obtain ⟨hf', hr', ht'⟩ := h'.kept p hf
    exact ⟨hf', hr'.trans hr, ht'.trans ht⟩

/-- A request that is refused adds nothing. -/
theorem grown_refuse (s : Vm κ) : Grown s (refuse s) :=
  ⟨.single (.refuse s), rfl, rfl, fun _ h => h, fun _ => rfl, fun _ h => h,
    fun _ h => ⟨h, rfl, Iff.rfl⟩⟩

/-- One new table adds nothing but that table. -/
theorem TableStep.grown {p : Frame} (h : TableStep s t p) : Grown s t where
  steps := .single (.table h)
  leaf := h.leaf
  data := h.data
  hasTable := h.hasTable
  refused := fun hr => h.refused.trans hr
  held := fun q hq => by
    rw [h.log]
    exact held_alloc.mpr (Or.inr hq)
  kept := fun q hq => by
    have hqp : q ≠ p := by
      rintro rfl
      have hp := h.wasFree
      rw [hq] at hp
      cases hp
    refine ⟨?_, ?_, (h.isTable q).trans (or_iff_right hqp)⟩
    · rw [h.free, Function.update_of_ne hqp]
      exact hq
    · rw [h.ref, Function.update_of_ne hqp]

/-- A counted page stays counted. -/
theorem Counted.grown {p : Frame} (hc : Counted s p) (h : Grown s t) : Counted t p := by
  obtain ⟨hf, hr, ht⟩ := h.kept p hc.notFree
  have hcount := mapCount_congr h.leaf p
  exact ⟨hf, fun h => hc.notTable (ht.mp h), by rw [hr, hcount]; exact hc.ref,
    by rw [hcount]; exact hc.owned.imp_right (h.held p)⟩

/-- New tables map nothing. -/
theorem Grown.tgt (h : Grown s t) : tgt t = tgt s := by
  funext x
  unfold Ucore.Proofs.Mm.tgt
  rw [h.leaf]

variable (e : PageOracle) (k : κ) (la : Nat)

/-- The first level of `get_pte`: the directory exists, or a request was refused. -/
theorem getPde1_spec (s : Vm κ) : ∃ ok s', getPde1 e s k la true = (ok, s') ∧ Grown s s' ∧
    (ok = true → (s'.dirs k (pdx1 la)).isSome = true) ∧ (ok = false → s'.refused = true) := by
  unfold getPde1
  cases hd : s.dirs k (pdx1 la) with
  | some d =>
      refine ⟨true, s, rfl, Grown.refl s, fun _ => ?_, fun h => by cases h⟩
      rw [hd]
      rfl
  | none =>
      rcases allocPage_cases e s with h | ⟨p, hp, h⟩
      · rw [h]
        exact ⟨false, refuse s, rfl, grown_refuse s, (fun h => by cases h), fun _ => rfl⟩
      · rw [h]
        refine ⟨true, _, rfl, (tableStep_pde1 hp hd).grown, fun _ => ?_, fun h => by cases h⟩
        simp [setPde]

/-- The second level of `get_pte`: the table exists, or a request was refused. -/
theorem getPde0_spec {s : Vm κ} (hs : (s.dirs k (pdx1 la)).isSome = true) :
    ∃ ok s', getPde0 e s k la true = (ok, s') ∧ Grown s s' ∧
      (ok = true → s'.hasTable (k, vpn la) = true) ∧ (ok = false → s'.refused = true) := by
  unfold getPde0
  cases hd : s.dirs k (pdx1 la) with
  | none => rw [hd] at hs; cases hs
  | some d =>
      dsimp only
      cases hj : d.pde (pdx0 la) with
      | some t =>
          refine ⟨true, s, rfl, Grown.refl s, fun _ => ?_, fun h => by cases h⟩
          simp [hasTable, vpn, hd, hj]
      | none =>
          rcases allocPage_cases e s with h | ⟨p, hp, h⟩
          · rw [h]
            exact ⟨false, refuse s, rfl, grown_refuse s, (fun h => by cases h), fun _ => rfl⟩
          · rw [h]
            refine ⟨true, _, rfl, (tableStep_pde0 hp hd hj).grown, fun _ => ?_,
              fun h => by cases h⟩
            simp [hasTable, setPde, vpn]

/-- `get_pte` with `create`: the table exists, or a request was refused. -/
theorem getPte_create (s : Vm κ) : ∃ ok s', getPte e s k la true = (ok, s') ∧ Grown s s' ∧
    (ok = true → s'.hasTable (k, vpn la) = true) ∧ (ok = false → s'.refused = true) := by
  obtain ⟨ok, t, h1, hg1, hdir, href⟩ := getPde1_spec e k la s
  unfold getPte
  rw [h1]
  cases ok with
  | false => exact ⟨false, t, rfl, hg1, (fun h => by cases h), href⟩
  | true =>
      obtain ⟨ok, u, h2, hg2, htab, href2⟩ := getPde0_spec e k la (hdir rfl)
      exact ⟨ok, u, h2, hg1.trans hg2, htab, href2⟩

omit [Fintype κ] in
/-- `get_pte` without `create` reads. -/
theorem getPte_read (s : Vm κ) : getPte e s k la false = (s.hasTable (k, vpn la), s) := by
  unfold getPte getPde1 getPde0 hasTable
  cases hd : s.dirs k (pdx1 la) with
  | none => simp [vpn, hd]
  | some d =>
      cases hj : d.pde (pdx0 la) with
      | none => simp [vpn, hd, hj]
      | some t => simp [vpn, hd, hj]

end Grown

/-! ### `page_insert` and `page_remove` -/

section Insert

variable {s : Vm κ} {x : Slot κ} {page : Frame} {perm : PteFlags}

/-- Writes to an entry and to a count are independent. -/
theorem setLeaf_setPageRef (s : Vm κ) (x : Slot κ) (e : Pte) (p : Frame) (v : Int) :
    (s.setPageRef p v).setLeaf x e = (s.setLeaf x e).setPageRef p v := by
  cases hx : s.hasTable x with
  | false =>
      have hx' : (s.setPageRef p v).hasTable x = false := hx
      rw [setLeaf_of_not_hasTable hx, setLeaf_of_not_hasTable hx']
  | true =>
      obtain ⟨d, t, hd, ht, heq⟩ := setLeaf_eq (e := e) hx
      rw [heq]
      have hd' : (s.setPageRef p v).dirs x.1 x.2.1 = some d := hd
      simp only [setLeaf, hd', ht]
      rfl

/-- Removing the entry of one page and counting another one up commute. -/
theorem pageRemovePte_pageRefInc {q : Frame} (hx : tgt s x = some q) (hne : q ≠ page) :
    pageRemovePte (s.pageRefInc page) x = (pageRemovePte s x).pageRefInc page := by
  obtain ⟨hv, hq⟩ := tgt_eq_some.mp hx
  have hv' : ((s.pageRefInc page).leaf x).valid = true := hv
  have hq' : ((s.pageRefInc page).leaf x).ppn = q := hq
  have hval : (s.pageRefInc page).ref q = s.ref q := Function.update_of_ne hne _ _
  have hdec : (s.pageRefInc page).pageRefDec q = (s.pageRefDec q).pageRefInc page := by
    have hval' : (s.pageRefDec q).ref page = s.ref page := Function.update_of_ne (Ne.symm hne) _ _
    unfold pageRefDec at hval' ⊢
    unfold pageRefInc at hval ⊢
    rw [hval, hval']
    have hcomm := Function.update_comm hne (s.ref q - 1) (s.ref page + 1) s.ref
    simp only [setPageRef, hcomm]
  simp only [pageRemovePte, hv, hv', if_true, hq, hq', hdec]
  have hzero : ((s.pageRefDec q).pageRefInc page).ref q = (s.pageRefDec q).ref q :=
    Function.update_of_ne hne _ _
  rw [hzero]
  by_cases h0 : (s.pageRefDec q).ref q = 0
  · rw [if_pos h0, if_pos h0]
    have hfree : freePage ((s.pageRefDec q).pageRefInc page) q =
        (freePage (s.pageRefDec q) q).pageRefInc page := by
      have hval' : (freePage (s.pageRefDec q) q).ref page = (s.pageRefDec q).ref page :=
        Function.update_of_ne (Ne.symm hne) _ _
      unfold pageRefInc
      rw [hval']
      have hcomm := Function.update_comm (Ne.symm hne) ((s.pageRefDec q).ref page + 1) 0
        (s.pageRefDec q).ref
      simp only [freePage, setPageRef, hcomm]
    rw [hfree, pageRefInc, setLeaf_setPageRef]
    obtain ⟨-, hr, -⟩ := setLeaf_frame (freePage (s.pageRefDec q) q) x .zero
    rw [pageRefInc, hr]
  · rw [if_neg h0, if_neg h0, pageRefInc, setLeaf_setPageRef]
    obtain ⟨-, hr, -⟩ := setLeaf_frame (s.pageRefDec q) x .zero
    rw [pageRefInc, hr]

/-- `page_insert` at an empty entry. -/
theorem insertPte_empty (h : tgt s x = none) : insertPte s x page perm = mapPte s x page perm := by
  have hv : ((s.pageRefInc page).leaf x).valid = false := by
    have hv : ¬ (s.leaf x).valid = true := by
      intro hv
      have hsome := tgt_eq_some.mpr ⟨hv, rfl⟩
      rw [h] at hsome
      cases hsome
    exact Bool.eq_false_iff.mpr hv
  simp only [insertPte, hv, Bool.false_eq_true, if_false]
  rfl

/-- `page_insert` of the page that is already there: up and down again. -/
theorem insertPte_same (h : tgt s x = some page) :
    insertPte s x page perm = s.setLeaf x (pteCreate page perm) := by
  obtain ⟨hv, hp⟩ := tgt_eq_some.mp h
  have hv' : ((s.pageRefInc page).leaf x).valid = true := hv
  have hp' : ((s.pageRefInc page).leaf x).ppn = page := hp
  have hback : (s.pageRefInc page).pageRefDec page = s := by
    simp only [pageRefDec, pageRefInc, setPageRef, Function.update_self, Function.update_idem,
      Int.add_sub_cancel, Function.update_eq_self]
  simp only [insertPte, hv', hp', if_true, hback]

/-- `page_insert` over another page: that page is removed first. -/
theorem insertPte_other {q : Frame} (h : tgt s x = some q) (hne : q ≠ page) :
    insertPte s x page perm = mapPte (pageRemovePte s x) x page perm := by
  obtain ⟨hv, hq⟩ := tgt_eq_some.mp h
  have hv' : ((s.pageRefInc page).leaf x).valid = true := hv
  have hq' : ((s.pageRefInc page).leaf x).ppn = q := hq
  simp only [insertPte, hv', hq', if_true, if_neg hne, pageRemovePte_pageRefInc h hne]
  rfl

section Steps

variable [Fintype κ]

/-- A page in hand stays counted while the entry of another page goes. -/
theorem Counted.removed {q : Frame} (hc : Counted s page) (h : tgt s x = some q)
    (hne : q ≠ page) : Counted (pageRemovePte s x) page := by
  rcases hc.step (.unmap h) with hc' | ⟨hf, -⟩
  · exact hc'
  · have hspec := pageRemovePte_spec h
    have hsame : (pageRemovePte s x).free page = s.free page := by
      by_cases hone : s.ref q = 1
      · rw [(hspec.last hone).1, Function.update_of_ne (Ne.symm hne)]
      · rw [(hspec.notLast hone).1]
    rw [hsame, hc.notFree] at hf
    cases hf

/-- `page_insert` behind its `get_pte` is made of steps. -/
theorem insertPte_steps (perm : PteFlags) (hx : s.hasTable x = true) (hc : Counted s page) :
    VmSteps s (insertPte s x page perm) := by
  cases ht : tgt s x with
  | none =>
      rw [insertPte_empty ht]
      exact .single (.map perm hx ht hc)
  | some q =>
      by_cases hq : q = page
      · subst hq
        rw [insertPte_same ht]
        exact .single (.relabel hx (by rw [target_pteCreate]; exact ht.symm))
      · rw [insertPte_other ht hq]
        have hspec := pageRemovePte_spec ht
        have hx' : (pageRemovePte s x).hasTable x = true := (hspec.hasTable x).trans hx
        have hnone : tgt (pageRemovePte s x) x = none := by
          rw [hspec.tgt, Function.update_self]
        exact .tail (.single (.unmap ht)) (.map perm hx' hnone (hc.removed ht hq))

/-- `page_insert` is a sequence of moves, and fails only if a request was refused. -/
theorem pageInsert_steps (e : PageOracle) (k : κ) (la : Nat) (perm : PteFlags)
    (hc : Counted s page) :
    ∃ ret s', pageInsert e s k page la perm = (ret, s') ∧ VmSteps s s' ∧
      ((ret = 0) ∨ (ret = -eNoMem ∧ s'.refused = true)) := by
  obtain ⟨ok, t, hget, hg, htab, href⟩ := getPte_create e k la s
  unfold pageInsert
  rw [hget]
  cases ok with
  | false => exact ⟨_, t, rfl, hg.steps, Or.inr ⟨rfl, href rfl⟩⟩
  | true =>
      have hins := insertPte_steps perm (htab rfl) (hc.grown hg)
      exact ⟨0, _, rfl, hg.steps.trans hins, Or.inl rfl⟩

/-- `page_remove_pte` is made of steps. -/
theorem pageRemovePte_steps (s : Vm κ) (x : Slot κ) : VmSteps s (pageRemovePte s x) := by
  by_cases hv : (s.leaf x).valid = true
  · exact .single (.unmap (tgt_eq_some.mpr ⟨hv, rfl⟩))
  · rw [pageRemovePte, if_neg hv]

/-- `page_remove` is made of steps. -/
theorem pageRemove_steps (e : PageOracle) (s : Vm κ) (k : κ) (la : Nat) :
    VmSteps s (pageRemove e s k la) := by
  unfold pageRemove
  rw [getPte_read]
  cases s.hasTable (k, vpn la) with
  | false => exact .refl
  | true => exact pageRemovePte_steps s _

/-- One round of `unmap_range` is made of steps. -/
theorem unmapRangeStep_steps (e : PageOracle) (k : κ) (start : Nat) (s : Vm κ) :
    VmSteps s (unmapRangeStep e k start s).2 := by
  unfold unmapRangeStep
  rw [getPte_read]
  cases s.hasTable (k, vpn start) with
  | false => exact .refl
  | true =>
      show VmSteps s (if s.leaf (k, vpn start) ≠ .zero then pageRemovePte s (k, vpn start) else s)
      split
      · exact pageRemovePte_steps s _
      · exact .refl

/-- The loop of `unmap_range` is made of the steps of its rounds. -/
theorem unmapRangeLoop_steps (e : PageOracle) (k : κ) (stop : Nat) :
    ∀ (fuel start : Nat) (s s' : Vm κ), unmapRangeLoop e k stop fuel start s = .ok s' →
      VmSteps s s' := by
  intro fuel
  induction fuel with
  | zero => intro start s s' h; cases h
  | succ fuel ih =>
      intro start s s' h
      have hstep := unmapRangeStep_steps e k start s
      rw [unmapRangeLoop] at h
      split at h
      rename_i next t heq
      rw [heq] at hstep
      split at h
      · exact hstep.trans (ih next t s' h)
      · cases h
        exact hstep

/-- `unmap_range` is made of steps. -/
theorem unmapRange_steps {e : PageOracle} {s s' : Vm κ} {k : κ} {start stop : Nat}
    (h : unmapRange e s k start stop = .ok s') : VmSteps s s' := by
  unfold unmapRange at h
  split at h
  · exact unmapRangeLoop_steps e k stop _ _ _ _ h
  · cases h

end Steps

end Insert

end Ucore.Proofs.Mm
