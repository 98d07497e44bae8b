import Ucore.Proofs.Mm.Cow

/-!
# `Ucore.Proofs.Mm.RefCount`: reference counts are exact

A run of the page table functions over any number of address spaces that start empty. The theorem
`ref_exact` says three things about every state of a run. `ref` of a user page is the number of leaf
entries that map it. A mapped page is a user page and is not free. And the record of what happened
to pages is `Orderly`: a page is returned to the allocator in the removal of its last mapping, only
there, and always there.

The count and the record are two invariants over the same moves. `RefInv` is in
`Ucore.Proofs.Mm.PageTable`. `LogInv` ties the record to the state: `held` reads off the record who
has been allocated and not freed, and these are the pages that are not free. A move adds at most a
few events to the record, and `step_map` and `step_unmap` are the two in which the count matters: a
page is freed when the entry that is cleared was the last one.

`VmOp` are the calls of a run, with pages that a caller has allocated and may insert anywhere. A
table is never inserted (`VmOp.Legal`), which is what keeps the pages of tables apart from user
pages.
-/

set_option autoImplicit false

namespace Ucore.Proofs.Mm

open Ucore.Lib
open Ucore.Mm
open Ucore.Mm.Vm

/-! ### The record of a run -/

/-- No page is allocated or freed twice in a row, only allocated pages are mapped, and a
page is freed exactly when its last mapping goes. The newest event comes first. -/
inductive Orderly : List PageEvent → Prop
  | nil : Orderly []
  | alloc {l : List PageEvent} {p : Frame} : Orderly l → held l p = false →
      mappings l p = 0 → Orderly (.alloc p :: l)
  | map {l : List PageEvent} {p : Frame} : Orderly l → held l p = true → Orderly (.map p :: l)
  | unmap {l : List PageEvent} {p : Frame} : Orderly l → 2 ≤ mappings l p →
      Orderly (.unmap p :: l)
  | last {l : List PageEvent} {p : Frame} : Orderly l → held l p = true → mappings l p = 1 →
      Orderly (.unmap p :: .free p :: l)

variable {κ : Type} [DecidableEq κ] [Fintype κ]

/-- A page that `alloc_page` gave to a caller who did not make a table of it. -/
def UserPage (s : Vm κ) (p : Frame) : Prop := held s.log p = true ∧ ¬ s.IsTable p

/-- The record agrees with the state. -/
structure LogInv (s : Vm κ) : Prop where
  ref : RefInv s
  counted : ∀ p, UserPage s p → Counted s p
  heldFree : ∀ p, held s.log p = true → s.free p = false
  mappedHeld : ∀ p, 0 < mapCount s p → held s.log p = true
  mappings : ∀ p, mappings s.log p = mapCount s p
  orderly : Orderly s.log

namespace LogInv

variable {s s' : Vm κ}

/-- The two parts of the invariant that every move gets from the counts. -/
theorem of_log (hi : LogInv s) (h : VmStep s s')
    (huser : ∀ p, UserPage s' p → UserPage s p ∨ Counted s' p)
    (hheldFree : ∀ p, held s'.log p = true → s'.free p = false)
    (hmappedHeld : ∀ p, 0 < mapCount s' p → held s'.log p = true)
    (hmappings : ∀ p, Ucore.Proofs.Mm.mappings s'.log p = mapCount s' p)
    (horderly : Orderly s'.log) : LogInv s' where
  ref := hi.ref.step h
  counted := fun p hp => by
    rcases huser p hp with hold | hc
    · rcases (hi.counted p hold).step h with hc | ⟨hf, -⟩
      · exact hc
      · rw [hheldFree p hp.1] at hf
        cases hf
    · exact hc
  heldFree := hheldFree
  mappedHeld := hmappedHeld
  mappings := hmappings
  orderly := horderly

omit [DecidableEq κ] in
/-- A page the allocator gives away was not held. -/
theorem not_held_of_free (hi : LogInv s) {p : Frame} (hp : s.free p = true) :
    held s.log p = false := by
  cases h : held s.log p with
  | false => rfl
  | true =>
      have hf := hi.heldFree p h
      rw [hp] at hf
      cases hf

omit [DecidableEq κ] in
/-- A page that is free may be allocated. -/
theorem orderly_alloc (hi : LogInv s) {p : Frame} (hp : s.free p = true) :
    Orderly (.alloc p :: s.log) :=
  .alloc hi.orderly (hi.not_held_of_free hp)
    ((hi.mappings p).trans (hi.ref.mapCount_of_free hp))

omit [DecidableEq κ] in
/-- The held pages are not free after the page `p` was given away. -/
theorem heldFree_alloc (hi : LogInv s) {p : Frame} (q : Frame)
    (h : held (.alloc p :: s.log) q = true) : Function.update s.free p false q = false := by
  by_cases hqp : q = p
  · rw [hqp, Function.update_self]
  · rw [Function.update_of_ne hqp]
    exact hi.heldFree q ((held_alloc.mp h).resolve_left (Ne.symm hqp))

/-- Clearing an entry keeps the invariant. -/
theorem step_unmap (hi : LogInv s) {x : Slot κ} {p : Frame} (hp : tgt s x = some p) :
    LogInv (pageRemovePte s x) := by
  have hspec := pageRemovePte_spec hp
  have hcount := mapCount_unmap hp hspec.tgt
  have hmapped : 0 < mapCount s p := mapCount_pos_iff.mpr ⟨x, hp⟩
  have href := (hi.ref.mapped p hmapped).ref
  by_cases hone : s.ref p = 1
  · -- The last mapping: the page goes back to the allocator.
    obtain ⟨hf, -, hl⟩ := hspec.last hone
    have hheld : ∀ q, held (pageRemovePte s x).log q = (p != q && held s.log q) := by
      intro q
      rw [hl]
      rfl
    apply hi.of_log (.unmap hp)
    · rintro q ⟨hq, hqt⟩
      rw [hheld q, Bool.and_eq_true] at hq
      exact Or.inl ⟨hq.2, fun ht => hqt ((hspec.isTable q).mpr ht)⟩
    · intro q hq
      rw [hheld q, Bool.and_eq_true, bne_iff_ne] at hq
      rw [hf, Function.update_of_ne (Ne.symm hq.1)]
      exact hi.heldFree q hq.2
    · intro q hq
      have hq' := hcount q
      rw [hheld q, Bool.and_eq_true, bne_iff_ne]
      refine ⟨?_, hi.mappedHeld q (by omega)⟩
      rintro rfl
      rw [if_pos rfl] at hq'
      omega
    · intro q
      have hq := hcount q
      rw [hl]
      show Ucore.Proofs.Mm.mappings s.log q - (if p = q then 1 else 0) = _
      rw [hi.mappings q]
      omega
    · rw [hl]
      refine .last hi.orderly (hi.mappedHeld p hmapped) ?_
      rw [hi.mappings p]
      omega
  -- Other mappings are left: the page stays with its owner, and the log has one mapping less of it.
  · obtain ⟨hf, -, hl⟩ := hspec.notLast hone
    apply hi.of_log (.unmap hp)
    · rintro q ⟨hq, hqt⟩
      rw [hl] at hq
      exact Or.inl ⟨hq, fun ht => hqt ((hspec.isTable q).mpr ht)⟩
    · intro q hq
      rw [hl] at hq
      rw [hf]
      exact hi.heldFree q hq
    · intro q hq
      have hq' := hcount q
      rw [hl]
      exact hi.mappedHeld q (by omega)
    · intro q
      have hq := hcount q
      rw [hl]
      show Ucore.Proofs.Mm.mappings s.log q - (if p = q then 1 else 0) = _
      rw [hi.mappings q]
      omega
    · rw [hl]
      refine .unmap hi.orderly ?_
      rw [hi.mappings p]
      omega

/-- Filling an entry keeps the invariant. -/
theorem step_map (hi : LogInv s) {x : Slot κ} {p : Frame} {perm : PteFlags}
    (ht : s.hasTable x = true) (hn : tgt s x = none) (hc : Counted s p) :
    LogInv (mapPte s x p perm) := by
  have hp : held s.log p = true := hc.owned.elim (hi.mappedHeld p) id
  have hspec := mapPte_spec ht hn p perm
  have hcount := mapCount_map hn hspec.tgt
  apply hi.of_log (.map perm ht hn hc)
  · rintro q ⟨hq, hqt⟩
    rw [hspec.log] at hq
    exact Or.inl ⟨hq, fun h => hqt ((hspec.isTable q).mpr h)⟩
  · intro q hq
    rw [hspec.log] at hq
    rw [hspec.free]
    exact hi.heldFree q hq
  · intro q hq
    have hq' := hcount q
    rw [hspec.log]
    by_cases hqp : p = q
    · exact hqp ▸ hp
    · rw [if_neg hqp] at hq'
      exact hi.mappedHeld q (by omega)
  · intro q
    rw [hspec.log, hcount q]
    show Ucore.Proofs.Mm.mappings s.log q + _ = _
    rw [hi.mappings q]
  · rw [hspec.log]
    exact .map hi.orderly hp

/-- Every move keeps the record in agreement. -/
theorem step (hi : LogInv s) (h : VmStep s s') : LogInv s' := by
  -- One case for each move of `VmStep`: what it writes into the log against what it does to the
  -- counts.
  cases h with
  | refuse =>
      exact hi.of_log (.refuse s) (fun _ hp => Or.inl hp) hi.heldFree hi.mappedHeld hi.mappings
        hi.orderly
  | @table _ p h =>
      apply hi.of_log (.table h)
      · rintro q ⟨hq, hqt⟩
        rw [h.log] at hq
        have hqp : p ≠ q := fun hpq => hqt ((h.isTable q).mpr (Or.inl hpq.symm))
        exact Or.inl ⟨(held_alloc.mp hq).resolve_left hqp,
          fun ht => hqt ((h.isTable q).mpr (Or.inr ht))⟩
      · intro q hq
        rw [h.log] at hq
        rw [h.free]
        exact hi.heldFree_alloc q hq
      · intro q hq
        rw [mapCount_congr h.leaf] at hq
        rw [h.log]
        show (p == q || held s.log q) = true
        rw [hi.mappedHeld q hq, Bool.or_true]
      · intro q
        rw [h.log, mapCount_congr h.leaf]
        exact hi.mappings q
      · rw [h.log]
        exact hi.orderly_alloc h.wasFree
  | @take p hp =>
      apply hi.of_log (.take hp)
      · rintro q ⟨hq, hqt⟩
        rcases held_alloc.mp hq with rfl | hq
        · exact Or.inr (counted_grab hi.ref hp)
        · exact Or.inl ⟨hq, hqt⟩
      · exact fun q hq => hi.heldFree_alloc q hq
      · intro q hq
        show (p == q || held s.log q) = true
        rw [hi.mappedHeld q hq, Bool.or_true]
      · exact hi.mappings
      · exact hi.orderly_alloc hp
  -- Other flags for an entry, the same page: nothing to count.
  | @relabel x e ht he =>
      have hlog := log_relabel ht he
      obtain ⟨hf, -⟩ := setLeaf_frame s x e
      apply hi.of_log (.relabel ht he)
      · rintro q ⟨hq, hqt⟩
        rw [hlog] at hq
        exact Or.inl ⟨hq, fun h => hqt ((isTable_setLeaf q).mpr h)⟩
      · intro q hq
        rw [hlog] at hq
        rw [hf]
        exact hi.heldFree q hq
      · intro q hq
        rw [mapCount_relabel ht he] at hq
        rw [hlog]
        exact hi.mappedHeld q hq
      · intro q
        rw [hlog, mapCount_relabel ht he]
        exact hi.mappings q
      · rw [hlog]
        exact hi.orderly
  | @unmap x p hp => exact hi.step_unmap hp
  | @map x p perm ht hn hp => exact hi.step_map ht hn hp
  | copy dst src =>
      exact hi.of_log (.copy s dst src) (fun _ hp => Or.inl hp) hi.heldFree hi.mappedHeld
        hi.mappings hi.orderly

/-- Any number of steps keeps the invariant. -/
theorem steps (hi : LogInv s) (h : VmSteps s s') : LogInv s' := by
  induction h with
  | refl => exact hi
  | tail _ hs ih => exact ih.step hs

end LogInv

/-! ### Runs -/

/-- The calls of a run. `alloc` is `alloc_page` by a caller, who may then insert the page
anywhere, any number of times. -/
inductive VmOp (κ : Type)
  | alloc
  | pageInsert (k : κ) (page : Frame) (la : Nat) (perm : PteFlags)
  | pageRemove (k : κ) (la : Nat)
  | unmapRange (k : κ) (start stop : Nat)
  | copyRange (toDir fromDir : κ) (start stop : Nat) (share : Bool)
  | doPgfault (k : κ) (mm : Option MmStruct) (errorCode addr : Nat)

omit [Fintype κ] in
/-- One call. -/
def VmOp.exec (e : PageOracle) (s : Vm κ) : VmOp κ → Except Halt (Vm κ)
  | .alloc => .ok (allocPage e s).2
  | .pageInsert k page la perm => .ok (Ucore.Mm.pageInsert e s k page la perm).2
  | .pageRemove k la => .ok (Ucore.Mm.pageRemove e s k la)
  | .unmapRange k start stop => Ucore.Mm.unmapRange e s k start stop
  | .copyRange toDir fromDir start stop share => do
      let (_, s) ← Ucore.Mm.copyRange e s toDir fromDir start stop share
      return s
  | .doPgfault k mm errorCode addr => .ok (Ucore.Mm.doPgfault e s k mm errorCode addr).2.2

/-- A caller inserts only user pages. -/
def VmOp.Legal (s : Vm κ) : VmOp κ → Prop
  | .pageInsert _ page _ _ => UserPage s page
  | _ => True

/-- The states after any sequence of calls that return. -/
inductive VmRun (e : PageOracle) (s : Vm κ) : Vm κ → Prop
  | refl : VmRun e s s
  | step {t u : Vm κ} (op : VmOp κ) :
      VmRun e s t → op.Legal t → op.exec e t = .ok u → VmRun e s u

/-- Empty address spaces, and an allocator whose free pages have `ref` zero. -/
structure Fresh (s : Vm κ) : Prop where
  dirs : ∀ k i, s.dirs k i = none
  freeRef : ∀ p, s.free p = true → s.ref p = 0
  log : s.log = []

/-- The reference counts of a state are exact, and so was every return of a page. -/
structure RefExact (s : Vm κ) : Prop where
  ref : ∀ p, UserPage s p → s.ref p = mapCount s p
  /-- A page is not free while it is mapped. -/
  mapped : ∀ p, 0 < mapCount s p → UserPage s p ∧ s.free p = false
  mappings : ∀ p, Ucore.Proofs.Mm.mappings s.log p = mapCount s p
  orderly : Orderly s.log

omit [DecidableEq κ] in
/-- The invariant holds at the start. -/
theorem Fresh.logInv {s : Vm κ} (h : Fresh s) : LogInv s := by
  have hleaf : ∀ x, tgt s x = none := by
    intro x
    unfold tgt leaf
    rw [h.dirs]
    exact Pte.target_zero
  have hzero : ∀ p, mapCount s p = 0 := by
    intro p
    by_contra hne
    obtain ⟨x, hx⟩ := mapCount_pos_iff.mp (Nat.pos_of_ne_zero hne)
    rw [hleaf x] at hx
    cases hx
  have htable : ∀ p, ¬ s.IsTable p := by
    rintro p ⟨k, i, d, hd, -⟩
    rw [h.dirs] at hd
    cases hd
  have hheld : ∀ p, held s.log p = false := by
    intro p
    rw [h.log]
    rfl
  constructor
  case ref =>
    exact ⟨fun p hp => absurd (hzero p) (by omega), h.freeRef, fun p hp => absurd hp (htable p)⟩
  case counted =>
    rintro p ⟨hp, -⟩
    rw [hheld p] at hp
    cases hp
  case heldFree =>
    intro p hp
    rw [hheld p] at hp
    cases hp
  case mappedHeld => exact fun p hp => absurd (hzero p) (by omega)
  case mappings =>
    intro p
    rw [h.log, hzero p]
    rfl
  case orderly =>
    rw [h.log]
    exact .nil

/-- One call keeps the record in agreement. -/
theorem LogInv.exec {e : PageOracle} {s s' : Vm κ} {op : VmOp κ} (hi : LogInv s)
    (hl : op.Legal s) (h : op.exec e s = .ok s') : LogInv s' := by
  cases op with
  | alloc =>
      cases h
      rcases allocPage_cases e s with ha | ⟨p, hp, ha⟩
      · rw [ha]
        exact hi.step (.refuse s)
      · rw [ha]
        exact hi.step (.take hp)
  | pageInsert k page la perm =>
      cases h
      obtain ⟨ret, t, heq, hsteps, -⟩ :=
        pageInsert_steps e k la perm (hi.counted page hl)
      rw [heq]
      exact hi.steps hsteps
  | pageRemove k la =>
      cases h
      exact hi.steps (pageRemove_steps e s k la)
  | unmapRange k start stop => exact hi.steps (unmapRange_steps h)
  | copyRange toDir fromDir start stop share =>
      obtain ⟨⟨ret, t⟩, hc, h⟩ := Halt.bind_eq_ok.mp h
      cases h
      exact hi.steps (copyRange_steps hi.ref hc)
  | doPgfault k mm errorCode addr =>
      cases h
      exact hi.steps (doPgfault_steps e hi.ref k mm errorCode addr)

/-- The invariant holds in every state of a run. -/
theorem VmRun.logInv {e : PageOracle} {s t : Vm κ} (hs : LogInv s) (h : VmRun e s t) :
    LogInv t := by
  induction h with
  | refl => exact hs
  | step op _ hl he ih => exact ih.exec hl he

/-- In every state of every run the reference counts are exact, and a page was returned to
the allocator exactly when its last mapping went. -/
theorem ref_exact {e : PageOracle} {s t : Vm κ} (hs : Fresh s) (h : VmRun e s t) :
    RefExact t := by
  have hi := h.logInv hs.logInv
  constructor
  · exact fun p hp => (hi.counted p hp).ref
  · intro p hp
    have hc := hi.ref.mapped p hp
    exact ⟨⟨hi.mappedHeld p hp, hc.notTable⟩, hc.notFree⟩
  · exact hi.mappings
  · exact hi.orderly

/-- The allocator that gives the pages away in order, each once. -/
def inOrder : PageOracle where
  pick n free := if free n then some n else none
  pick_free := by
    intro n free p h
    split at h
    · cases h
      assumption
    · cases h

/-- Empty address spaces, and every page free. -/
def emptySpaces (κ : Type) : Vm κ where
  free := fun _ => true
  ref := fun _ => 0
  data := fun _ _ => 0
  dirs := fun _ _ => none
  requests := 0
  refused := false
  log := []

/-- An area of one page. -/
def onePage : MmStruct := ⟨[⟨0x800000, 0x801000, 0⟩], none, 1⟩

/-- A page allocated, mapped by one space, shared with the other, and stored to there. -/
def shareAndStore : Except Halt (Vm Bool) := do
  let s ← VmOp.exec inOrder (emptySpaces Bool) .alloc
  let s ← VmOp.exec inOrder s (.pageInsert false 0 0x800000 (pteU ||| pteR ||| pteW))
  let s ← VmOp.exec inOrder s (.copyRange true false 0x800000 0x801000 true)
  VmOp.exec inOrder s (.doPgfault true (some onePage) causeStorePageFault 0x800123)

/-- The run of `shareAndStore`: the child gets the page five, and the first page is
mapped once again. -/
theorem shareAndStore_exact :
    ∃ t, VmRun inOrder (emptySpaces Bool) t ∧ t.ref 0 = 1 ∧ t.ref 5 = 1 ∧
      t.log.head? = some (.map 5) ∧ RefExact t := by
  have hcheck : (shareAndStore.map fun t => (t.ref 0, t.ref 5, t.log.head?)) =
      .ok (1, 1, some (.map 5)) := by decide +kernel
  have hfresh : Fresh (emptySpaces Bool) := ⟨fun _ _ => rfl, fun _ _ => rfl, rfl⟩
  cases hrun : shareAndStore with
  | error err => rw [hrun] at hcheck; cases hcheck
  | ok t =>
      rw [hrun] at hcheck
      have hvals := Except.ok.inj hcheck
      simp only [Prod.mk.injEq] at hvals
      obtain ⟨h0, h5, hlog⟩ := hvals
      unfold shareAndStore at hrun
      obtain ⟨s₁, h1, hrun⟩ := Halt.bind_eq_ok.mp hrun
      obtain ⟨s₂, h2, hrun⟩ := Halt.bind_eq_ok.mp hrun
      obtain ⟨s₃, h3, h4⟩ := Halt.bind_eq_ok.mp hrun
      have huser : UserPage s₁ 0 := by
        cases h1
        refine ⟨by decide, ?_⟩
        rintro ⟨k, i, d, hd, -⟩
        cases hd
      have r1 : VmRun inOrder (emptySpaces Bool) s₁ := .step .alloc .refl trivial h1
      have r2 : VmRun inOrder (emptySpaces Bool) s₂ :=
        .step (.pageInsert false 0 0x800000 (pteU ||| pteR ||| pteW)) r1 huser h2
      have r3 : VmRun inOrder (emptySpaces Bool) s₃ :=
        .step (.copyRange true false 0x800000 0x801000 true) r2 trivial h3
      have r4 : VmRun inOrder (emptySpaces Bool) t :=
        .step (.doPgfault true (some onePage) causeStorePageFault 0x800123) r3 trivial h4
      exact ⟨t, r4, h0, h5, hlog, ref_exact hfresh r4⟩

end Ucore.Proofs.Mm
