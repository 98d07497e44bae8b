import Ucore.Mm.Cow
import Ucore.Proofs.Mm.PageTable

/-!
# `Ucore.Proofs.Mm.Cow`: copying and faults are sequences of moves

`copy_range` and `do_pgfault` of lab 5 in terms of the moves `VmStep`. Two facts about the code show
on the way: `page_insert` cannot fail in the fault handler, because the handler has found the table
already (`pageInsert_of_hasTable`), and a page that is shared or copied is counted when it is,
because an entry maps it (`RefInv.counted`).

The lemmas follow the functions: one page (`copyShared_steps`, `copyDup_steps`), one round of the
loop (`copyRangeStep_steps`), the loop by induction on its fuel (`copyRangeLoop_steps`), and
`copyRange_steps`. The handler has one branch of its own, `cowFault_steps`; the others do nothing to
the page tables (`doPgfault_steps`). Each of them needs `RefInv` at the beginning only, since the
moves keep it.
-/

set_option autoImplicit false

namespace Ucore.Proofs.Mm

open Ucore.Lib
open Ucore.Mm
open Ucore.Mm.Vm

variable {κ : Type} [DecidableEq κ]

/-! ### Flag bits -/

/-- Marking an entry copy-on-write keeps it valid, or invalid. -/
theorem valid_markCow (f : PteFlags) :
    PteFlags.has ((f &&& ~~~pteW) ||| pteCow) pteV = PteFlags.has f pteV := by
  revert f
  decide +kernel

/-- Making the sole owner's entry writable again, too. -/
theorem valid_unmarkCow (f : PteFlags) :
    PteFlags.has ((f ||| pteW) &&& ~~~pteCow) pteV = PteFlags.has f pteV := by
  revert f
  decide +kernel

/-- New flags that keep `PTE_V` keep what the entry maps. -/
theorem target_with_flags {e : Pte} {f : PteFlags} (h : PteFlags.has f pteV = e.valid) :
    ({ e with flags := f } : Pte).target = e.target := by
  unfold Pte.target
  have hv : ({ e with flags := f } : Pte).valid = e.valid := h
  rw [hv]

/-! ### The functions -/

/-- With the table in place `get_pte` finds it. -/
theorem getPte_of_hasTable (e : PageOracle) {s : Vm κ} {k : κ} {la : Nat}
    (h : s.hasTable (k, vpn la) = true) (create : Bool) :
    getPte e s k la create = (true, s) := by
  unfold hasTable at h
  cases hd : s.dirs k (pdx1 la) with
  | none => simp [vpn, hd] at h
  | some d =>
      cases hj : d.pde (pdx0 la) with
      | none => simp [vpn, hd, hj] at h
      | some t => simp [getPte, getPde1, getPde0, hd, hj]

/-- The table is in place behind a `get_pte` that returns a pointer. -/
theorem getPte_hasTable (e : PageOracle) (s : Vm κ) (k : κ) (la : Nat) (create : Bool) :
    (getPte e s k la create).1 = true →
      (getPte e s k la create).2.hasTable (k, vpn la) = true := by
  unfold getPte
  split
  · intro h
    cases h
  · rename_i t _
    unfold getPde0
    cases hd : t.dirs k (pdx1 la) with
    | none =>
        intro h
        cases h
    | some d =>
        dsimp only
        cases hj : d.pde (pdx0 la) with
        | some table =>
            intro _
            simp [hasTable, vpn, hd, hj]
        | none =>
            cases create with
            | false =>
                intro h
                cases h
            | true =>
                -- the new table is where the entry is
                rcases allocPage_cases e t with ha | ⟨p, -, ha⟩
                · simp [ha]
                · simp [ha, hasTable, setPde, vpn]

/-- With the table in place `page_insert` succeeds. -/
theorem pageInsert_of_hasTable (e : PageOracle) {s : Vm κ} {k : κ} {la : Nat}
    (h : s.hasTable (k, vpn la) = true) (page : Frame) (perm : PteFlags) :
    pageInsert e s k page la perm = (0, insertPte s (k, vpn la) page perm) := by
  rw [pageInsert, getPte_of_hasTable e h]

section Steps

variable [Fintype κ] {s s' : Vm κ}

omit [DecidableEq κ] in
/-- A page that some entry maps is counted. -/
theorem RefInv.counted (hi : RefInv s) {x : Slot κ} (h : (s.leaf x).valid = true) :
    Counted s (s.leaf x).ppn :=
  hi.mapped _ (mapCount_pos_iff.mpr ⟨x, tgt_eq_some.mpr ⟨h, rfl⟩⟩)

omit [DecidableEq κ] in
/-- A page just allocated is counted: `ref` is zero and nothing maps it. -/
theorem counted_grab (hi : RefInv s) {p : Frame} (hp : s.free p = true) :
    Counted (grab s p) p where
  notFree := Function.update_self ..
  notTable := fun ht => by
    have hf := hi.tables p ht
    rw [hp] at hf
    cases hf
  ref := by
    have hzero : mapCount (grab s p) p = 0 := hi.mapCount_of_free hp
    rw [hzero]
    exact hi.freeRef p hp
  owned := Or.inr (held_alloc.mpr (Or.inl rfl))

omit [DecidableEq κ] in
/-- Copying the bytes of a page leaves the counts. -/
theorem Counted.copyPage {p : Frame} (hc : Counted s p) (dst src : Frame) :
    Counted (s.copyPage dst src) p := ⟨hc.notFree, hc.notTable, hc.ref, hc.owned⟩

/-- Sharing one page is made of steps. -/
theorem copyShared_steps (e : PageOracle) (toDir : κ) {fromDir : κ} {start : Nat} (hi : RefInv s)
    (hv : (s.leaf (fromDir, vpn start)).valid = true) :
    VmSteps s (copyShared e s toDir fromDir start).2 := by
  have hc := hi.counted hv
  unfold copyShared
  dsimp only
  split
  · have htab := hasTable_of_valid s _ hv
    have htarget := target_with_flags (valid_markCow (s.leaf (fromDir, vpn start)).flags)
    have hmark := VmStep.relabel htab htarget
    -- The entry still maps the page, so the page is counted in the new state, too.
    have hpage : tgt (s.setLeaf (fromDir, vpn start) { s.leaf (fromDir, vpn start) with
        flags := ((s.leaf (fromDir, vpn start)).flags &&& ~~~pteW) ||| pteCow })
        (fromDir, vpn start) = some (s.leaf (fromDir, vpn start)).ppn := by
      rw [tgt_setLeaf htab, Function.update_self, htarget]
      exact tgt_eq_some.mpr ⟨hv, rfl⟩
    have hc' := (hi.step hmark).mapped _ (mapCount_pos_iff.mpr ⟨_, hpage⟩)
    obtain ⟨ret, t, heq, hsteps, -⟩ := pageInsert_steps e toDir start
      ((((s.leaf (fromDir, vpn start)).flags &&& pteUser) ||| pteCow) &&& ~~~pteW) hc'
    rw [heq]
    exact .trans (.single hmark) hsteps
  · obtain ⟨ret, t, heq, hsteps, -⟩ := pageInsert_steps e toDir start
      ((s.leaf (fromDir, vpn start)).flags &&& pteUser) hc
    rw [heq]
    exact hsteps

/-- Copying one page is made of steps. -/
theorem copyDup_steps {e : PageOracle} {toDir fromDir : κ} {start : Nat} {ret : Int}
    (hi : RefInv s) (h : copyDup e s toDir fromDir start = .ok (ret, s')) : VmSteps s s' := by
  unfold copyDup at h
  rcases allocPage_cases e s with ha | ⟨p, hp, ha⟩
  · rw [ha] at h
    cases h
  · rw [ha] at h
    dsimp only at h
    have hc := (counted_grab hi hp).copyPage p (s.leaf (fromDir, vpn start)).ppn
    obtain ⟨r, t, heq, hsteps, -⟩ := pageInsert_steps e toDir start
      ((s.leaf (fromDir, vpn start)).flags &&& pteUser) hc
    rw [heq] at h
    dsimp only at h
    split at h
    · cases h
      exact .trans (.tail (.single (.take hp)) (.copy _ _ _)) hsteps
    · cases h

/-- One round of `copy_range` is made of steps. -/
theorem copyRangeStep_steps {e : PageOracle} {toDir fromDir : κ} {share : Bool}
    {start next : Nat} {ret : Int} (hi : RefInv s)
    (h : copyRangeStep e toDir fromDir share start s = .ok (ret, next, s')) : VmSteps s s' := by
  unfold copyRangeStep at h
  rw [getPte_read] at h
  cases hx : s.hasTable (fromDir, vpn start) with
  | false =>
      rw [hx] at h
      simp only [Except.ok.injEq, Prod.mk.injEq] at h
      obtain ⟨-, -, rfl⟩ := h
      exact .refl
  | true =>
      rw [hx] at h
      dsimp only at h
      split at h
      · rename_i hv
        obtain ⟨ok, t, hget, hg, htab, -⟩ := getPte_create e toDir start s
        rw [hget] at h
        have hi' := hi.steps hg.steps
        have hv' : (t.leaf (fromDir, vpn start)).valid = true := by rw [hg.leaf]; exact hv
        cases ok with
        | false =>
            cases h
            exact hg.steps
        | true =>
            dsimp only at h
            split at h
            · have hsteps := copyShared_steps e toDir hi' hv'
              cases h
              exact hg.steps.trans hsteps
            · obtain ⟨⟨r, u⟩, hdup, h⟩ := Halt.bind_eq_ok.mp h
              cases h
              exact hg.steps.trans (copyDup_steps hi' hdup)
      · cases h
        exact .refl

/-- The loop of `copy_range` is made of the steps of its rounds. -/
theorem copyRangeLoop_steps {e : PageOracle} {toDir fromDir : κ} {share : Bool} {stop : Nat} :
    ∀ (fuel start : Nat) (s s' : Vm κ) (ret : Int), RefInv s →
      copyRangeLoop e toDir fromDir share stop fuel start s = .ok (ret, s') → VmSteps s s' := by
  intro fuel
  induction fuel with
  | zero => intro start s s' ret _ h; cases h
  | succ fuel ih =>
      intro start s s' ret hi h
      rw [copyRangeLoop] at h
      obtain ⟨⟨r, next, t⟩, hstep, h⟩ := Halt.bind_eq_ok.mp h
      have hsteps := copyRangeStep_steps hi hstep
      dsimp only at h
      split at h
      · cases h
        exact hsteps
      · split at h
        · exact hsteps.trans (ih _ _ _ _ (hi.steps hsteps) h)
        · cases h
          exact hsteps

/-- `copy_range` is made of steps. -/
theorem copyRange_steps {e : PageOracle} {toDir fromDir : κ} {share : Bool} {start stop : Nat}
    {ret : Int} (hi : RefInv s)
    (h : copyRange e s toDir fromDir start stop share = .ok (ret, s')) : VmSteps s s' := by
  unfold copyRange at h
  split at h
  · exact copyRangeLoop_steps _ _ _ _ _ hi h
  · cases h

/-- The copy-on-write branch of the fault handler. -/
theorem cowFault_steps (e : PageOracle) {k : κ} {la : Nat} (hi : RefInv s)
    (hv : (s.leaf (k, vpn la)).valid = true) : VmSteps s (cowFault e s k la).2 := by
  have htab := hasTable_of_valid s _ hv
  unfold cowFault
  dsimp only
  split
  · rcases allocPage_cases e s with ha | ⟨p, hp, ha⟩
    · rw [ha]
      exact .single (.refuse s)
    · rw [ha]
      dsimp only
      have htab' : ((grab s p).copyPage p (s.leaf (k, vpn la)).ppn).hasTable (k, vpn la) = true :=
        htab
      have hc := (counted_grab hi hp).copyPage p (s.leaf (k, vpn la)).ppn
      rw [pageInsert_of_hasTable e htab']
      exact .trans (.tail (.single (.take hp)) (.copy _ _ _)) (insertPte_steps _ htab' hc)
  · exact .single (.relabel htab
      (target_with_flags (valid_unmarkCow (s.leaf (k, vpn la)).flags)))

/-- An entry with both bits of the test is valid. -/
theorem valid_of_cow {f : PteFlags} (h : f &&& (pteV ||| pteCow) = pteV ||| pteCow) :
    PteFlags.has f pteV = true := by
  revert f
  decide +kernel

/-- `do_pgfault` is made of steps. -/
theorem doPgfault_steps (e : PageOracle) (hi : RefInv s) (k : κ) (mm : Option MmStruct)
    (errorCode addr : Nat) : VmSteps s (doPgfault e s k mm errorCode addr).2.2 := by
  unfold doPgfault
  cases mm with
  | none => exact .refl
  | some mm =>
      dsimp only
      split
      · exact .refl
      · split
        · exact .refl
        · rw [getPte_read]
          cases hx : s.hasTable (k, vpn (roundDown addr pgSize)) with
          | false => exact .refl
          | true =>
              dsimp only
              split
              · rename_i hcow
                exact cowFault_steps e hi (valid_of_cow hcow.1)
              · exact .refl

end Steps

end Ucore.Proofs.Mm
