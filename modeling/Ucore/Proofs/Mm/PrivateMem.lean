import Ucore.Proofs.Mm.RefCount
import Ucore.Proofs.Mm.UserMem

/-!
# `Ucore.Proofs.Mm.PrivateMem`: sharing and copying do the same

Both systems refine `PrivateSys` operation by operation (`exec_refines`), hence runs of the same
operations in both show the same (`copy_on_write_is_private`). The one condition is on forks: the
parent has no page that is already copy-on-write. Without it the statement is false
(`second_fork_loses_write`), because `PTE_COW` is not in `PTE_USER`.

## The abstract machine

In `PrivateSys` each process has its own pages, a fork copies them, and a store writes to a page of
the process if it may. `absOf` reads such a state off the page tables of a system. Memory does not
run out in it, so the statements are about runs in which every operation had the memory it needed.

## The simulation

* Store: the hardware lets it through (`direct_store`), refuses it for good (`refused_store`), or
  the page is copy-on-write and the handler serves it. Then the store is tried again and goes
  through, so it traps twice at most (`store_refines`).
* Fork: behind `copy_range` the child has the pages of the parent, and both have the same
  permissions as before (`fork_refines`). That no assertion but those on memory fails is a part of
  it (`Stops`).
* Load and unmapping change no page.

## Runs

`UserRun.refines` is the induction over a run. In the copying system no entry is ever marked
(`exec_noMark`), so there the condition on forks always holds (`UserRun.clean_of_copying`).
`Isolated` is the consequence for the processes: no store of one changes what another one reads.
-/

set_option autoImplicit false
set_option linter.unusedSectionVars false

namespace Ucore.Proofs.Mm

open Ucore.Lib
open Ucore.Mm
open Ucore.Mm.Vm

variable {κ : Type} [DecidableEq κ] [Fintype κ]

/-! ### Loads and stores -/

/-- The state of the abstract machine that a system has. -/
def absOf (sys : UserSys κ) : PrivateSys κ := ⟨pageOf sys.vm, areasOf sys⟩

/-- A load reads the private page. -/
theorem userByte_eq (sys : UserSys κ) (k : κ) (addr : Nat) :
    userByte sys.vm k addr = (absOf sys).byte k addr := by
  unfold userByte userEntry PrivateSys.byte absOf pageOf
  dsimp only
  by_cases haddr : addr < 2 ^ 38
  · simp only [if_pos haddr]
    by_cases hv : (sys.vm.leaf (k, vpn addr)).valid = true
    · simp [Pte.canLoad, hv]
    · simp [Pte.canLoad, hv]
  · simp only [if_neg haddr]

/-- A byte written through a writable entry changes the page of that entry and no other. -/
theorem pageOf_setByte {s : Vm κ} (hp : Private s) {x : Slot κ}
    (hv : (s.leaf x).valid = true) (hw : PteFlags.has (s.leaf x).flags pteW = true)
    (off : Fin 4096) (b : UInt8) :
    pageOf (setByte s (s.leaf x).ppn off b) =
      Function.update (pageOf s) x ((pageOf s x).map fun page => page.setByte off b) := by
  have hx : tgt s x = some (s.leaf x).ppn := tgt_eq_some.mpr ⟨hv, rfl⟩
  have hleaf : (setByte s (s.leaf x).ppn off b).leaf = s.leaf := rfl
  funext y
  by_cases hy : y = x
  · subst hy
    rw [Function.update_self]
    unfold pageOf
    rw [hleaf, if_pos hv, if_pos hv]
    simp [setByte, PrivatePage.setByte]
  · rw [Function.update_of_ne hy]
    apply pageOf_eq
    · rw [hleaf]
    · intro _
      rw [hleaf]
    · intro hvy
      rw [hleaf]
      apply Function.update_of_ne
      intro heq
      have hno := hp x y _ (Ne.symm hy) hx (tgt_eq_some.mpr ⟨hvy, heq⟩)
      rw [hno] at hw
      cases hw

/-- A store into a page keeps the invariant. -/
theorem Good.setByte {sys : UserSys κ} (h : Good sys) (p : Frame) (off : Fin 4096) (b : UInt8) :
    Good { sys with vm := setByte sys.vm p off b } where
  ref := by
    refine ⟨fun q hq => ?_, h.ref.freeRef, h.ref.tables⟩
    obtain ⟨h1, h2, h3, h4⟩ := h.ref.mapped q hq
    exact ⟨h1, h2, h3, h4⟩
  priv := h.priv
  cow := h.cow
  wf := h.wf
  empty := h.empty

/-- The abstract state when a page is there. -/
theorem store_of_page {a : PrivateSys κ} {k : κ} {addr : Nat} (b : UInt8) {page : PrivatePage}
    (haddr : addr < 2 ^ 38) (hpage : a.mem (k, vpn addr) = some page) :
    a.store k addr b =
      if page.r && page.w && page.u then
        let mem := Function.update a.mem (k, vpn addr) (some (page.setByte (pgOff addr) b))
        (true, ⟨mem, a.areas⟩)
      else (false, a) := by
  unfold PrivateSys.store
  rw [if_pos haddr, hpage]

/-- A process cannot store where it has no page. -/
theorem store_of_none {a : PrivateSys κ} {k : κ} {addr : Nat} (b : UInt8)
    (h : addr < 2 ^ 38 → a.mem (k, vpn addr) = none) : a.store k addr b = (false, a) := by
  unfold PrivateSys.store
  split
  · rename_i haddr
    rw [h haddr]
  · rfl

/-- A store that the hardware lets through. -/
theorem direct_store {sys : UserSys κ} (h : Good sys) {k : κ} {addr : Nat} (b : UInt8)
    (haddr : addr < 2 ^ 38) (hcan : (sys.vm.leaf (k, vpn addr)).canStore = true) :
    let sys' : UserSys κ :=
      ⟨setByte sys.vm (sys.vm.leaf (k, vpn addr)).ppn (pgOff addr) b, sys.mms⟩
    Good sys' ∧ (absOf sys).store k addr b = (true, absOf sys') := by
  simp only [Pte.canStore, Bool.and_eq_true] at hcan
  obtain ⟨⟨⟨hv, hr⟩, hw⟩, hu⟩ := hcan
  refine ⟨h.setByte _ _ _, ?_⟩
  have hpage : pageOf sys.vm (k, vpn addr) = some ⟨true, true,
      PteFlags.has (sys.vm.leaf (k, vpn addr)).flags pteX, true,
      sys.vm.data (sys.vm.leaf (k, vpn addr)).ppn⟩ := by
    simp [pageOf, hv, hr, hw, hu]
  have hset := pageOf_setByte h.priv hv hw (pgOff addr) b
  rw [store_of_page b haddr hpage, if_pos (show (true && true && true) = true from rfl)]
  unfold absOf
  dsimp only
  rw [hset, hpage]
  rfl

/-- A store that the hardware refuses for another reason than `PTE_COW` is none of the
abstract machine either. -/
theorem refused_store {sys : UserSys κ} {k : κ} {addr : Nat} (b : UInt8)
    (hcan : addr < 2 ^ 38 → (sys.vm.leaf (k, vpn addr)).canStore = false)
    (hcow : ¬ (addr < 2 ^ 38 ∧ (sys.vm.leaf (k, vpn addr)).valid = true ∧
      PteFlags.has (sys.vm.leaf (k, vpn addr)).flags pteCow = true)) :
    (absOf sys).store k addr b = (false, absOf sys) := by
  by_cases hpage : addr < 2 ^ 38 ∧ (sys.vm.leaf (k, vpn addr)).valid = true
  · obtain ⟨haddr, hv⟩ := hpage
    have hc : PteFlags.has (sys.vm.leaf (k, vpn addr)).flags pteCow = false := by
      by_contra hne
      exact hcow ⟨haddr, hv, by simpa using hne⟩
    have hno := hcan haddr
    simp only [Pte.canStore, hv, Bool.true_and] at hno
    have hmem : (absOf sys).mem (k, vpn addr) = pageOf sys.vm (k, vpn addr) := rfl
    rw [pageOf, if_pos hv] at hmem
    rw [store_of_page b haddr hmem]
    simp only [hc, Bool.or_false, hno, Bool.false_eq_true, if_false]
  · apply store_of_none
    intro haddr
    apply pageOf_of_invalid
    by_contra hne
    exact hpage ⟨haddr, by simpa using hne⟩

/-- The outcome of a store in the concrete system, for the abstract one. Running out of
memory is the only difference. -/
def StoreDone (sys : UserSys κ) (k : κ) (addr : Nat) (b : UInt8) (out : Bool × UserSys κ) :
    Prop :=
  out.2.vm.refused = true ∨
    Good out.2 ∧ (absOf sys).store k addr b = (out.1, absOf out.2)

/-- A store through an entry that is not copy-on-write. -/
theorem plain_store (e : PageOracle) {sys : UserSys κ} (h : Good sys) {k : κ}
    (hk : (sys.mms k).isSome = true) (addr : Nat) (b : UInt8) (fuel : Nat)
    (hcow : ¬ (addr < 2 ^ 38 ∧ (sys.vm.leaf (k, vpn addr)).canStore = false ∧
      (sys.vm.leaf (k, vpn addr)).valid = true ∧
      PteFlags.has (sys.vm.leaf (k, vpn addr)).flags pteCow = true)) :
    ∃ out, userStore e (fuel + 1) sys k addr b = .ok out ∧ StoreDone sys k addr b out := by
  by_cases hcan : addr < 2 ^ 38 ∧ (sys.vm.leaf (k, vpn addr)).canStore = true
  · obtain ⟨haddr, hcan⟩ := hcan
    obtain ⟨hgood, hstore⟩ := direct_store h b haddr hcan
    refine ⟨(true, _), ?_, Or.inr ⟨hgood, hstore⟩⟩
    rw [userStore]
    simp only [userEntry, if_pos haddr, hcan, if_true]
  · have hcan' : addr < 2 ^ 38 → (sys.vm.leaf (k, vpn addr)).canStore = false := by
      intro haddr
      by_contra hne
      exact hcan ⟨haddr, by simpa using hne⟩
    -- The handler cannot serve the fault.
    obtain ⟨ret, sys', hfault, hareas, -, hcases⟩ := storePageFault_spec e h hk addr
    have hplain : ret ≠ 0 ∧ (sys'.vm.refused = true ∨
        sys'.vm = sys.vm ∧ Good sys' ∧ ¬ (addr < 2 ^ 38 ∧
          (sys.vm.leaf (k, vpn addr)).valid = true ∧
          PteFlags.has (sys.vm.leaf (k, vpn addr)).flags pteCow = true)) := by
      rcases hcases with ⟨hne, hvm, hgood, hno⟩ | ⟨hne, href⟩ | ⟨-, haddr, hv, hc, -⟩
      · exact ⟨hne, Or.inr ⟨hvm, hgood, hno⟩⟩
      · exact ⟨hne, Or.inl href⟩
      · exact absurd ⟨haddr, hcan' haddr, hv, hc⟩ hcow
    obtain ⟨hret, hdone⟩ := hplain
    refine ⟨(false, sys'), ?_, ?_⟩
    · rw [userStore, hfault]
      dsimp only
      rw [if_pos hret]
      unfold userEntry
      by_cases haddr : addr < 2 ^ 38
      · simp only [if_pos haddr, hcan' haddr, Bool.false_eq_true, if_false]
      · simp only [if_neg haddr]
    · rcases hdone with href | ⟨hvm, hgood, hno⟩
      · exact Or.inl href
      · right
        have habs : absOf sys' = absOf sys := by
          unfold absOf
          rw [hvm, hareas]
        refine ⟨hgood, ?_⟩
        rw [habs]
        exact refused_store b hcan' hno

/-- A store does what the abstract machine does. It traps twice at most. -/
theorem store_refines (e : PageOracle) {sys : UserSys κ} (h : Good sys) {k : κ}
    (hk : (sys.mms k).isSome = true) (addr : Nat) (b : UInt8) :
    ∃ out, userStore e 3 sys k addr b = .ok out ∧ StoreDone sys k addr b out := by
  by_cases hcow : addr < 2 ^ 38 ∧ (sys.vm.leaf (k, vpn addr)).canStore = false ∧
      (sys.vm.leaf (k, vpn addr)).valid = true ∧
      PteFlags.has (sys.vm.leaf (k, vpn addr)).flags pteCow = true
  · obtain ⟨haddr, hcan, hv, hc⟩ := hcow
    obtain ⟨ret, sys', hfault, hareas, hk', hcases⟩ := storePageFault_spec e h hk addr
    have hfirst : userStore e 3 sys k addr b =
        if ret ≠ 0 then .ok (false, sys') else userStore e 2 sys' k addr b := by
      rw [userStore, hfault]
      simp only [userEntry, if_pos haddr, hcan, Bool.false_eq_true, if_false]
    rw [hfirst]
    rcases hcases with ⟨-, -, -, hno⟩ | ⟨hne, href⟩ | ⟨h0, -, -, -, hr, hgood⟩
    · exact absurd ⟨haddr, hv, hc⟩ hno
    · exact ⟨(false, sys'), if_pos hne, Or.inl href⟩
    · -- The instruction runs again, now through an entry that is not copy-on-write.
      rw [if_neg (fun hne => hne h0)]
      have hplain : ¬ (addr < 2 ^ 38 ∧ (sys'.vm.leaf (k, vpn addr)).canStore = false ∧
          (sys'.vm.leaf (k, vpn addr)).valid = true ∧
          PteFlags.has (sys'.vm.leaf (k, vpn addr)).flags pteCow = true) := by
        rintro ⟨-, -, -, hc'⟩
        rw [hr.noCow] at hc'
        cases hc'
      have habs : absOf sys' = absOf sys := by
        unfold absOf
        rw [hareas, funext hr.page]
      obtain ⟨out, hout, hdone⟩ := plain_store e hgood hk' addr b 1 hplain
      refine ⟨out, hout, ?_⟩
      unfold StoreDone at hdone ⊢
      rwa [← habs]
  · exact plain_store e h hk addr b 2 hcow

/-! ### Forks -/

/-- No page of the parent is copy-on-write. -/
def CleanFork (sys : UserSys κ) : UserOp κ → Prop
  | .fork parent _ => NoCow sys.vm parent fun _ => True
  | _ => True

/-- A call that stops only because memory ran out, and not at all with `share = 1`. -/
def Stops {α : Type} (share : Bool) (x : Except Halt α) : Prop :=
  ∀ err, x = .error err → err = .noMem ∧ share = false

/-- A result is no stop. -/
theorem Stops.ok {α : Type} {share : Bool} (a : α) : Stops share (.ok a : Except Halt α) := by
  intro err h
  cases h

/-- One function after another stops where one of them does. -/
theorem Stops.bind {α β : Type} {share : Bool} {x : Except Halt α} {f : α → Except Halt β}
    (hx : Stops share x) (hf : ∀ a, x = .ok a → Stops share (f a)) : Stops share (x >>= f) := by
  cases x with
  | error err =>
      intro err' h
      cases h
      exact hx err rfl
  | ok a => exact hf a rfl

omit [Fintype κ] in
/-- The copy of one page stops only for want of memory. -/
theorem copyDup_stops (e : PageOracle) {s : Vm κ} {c k : κ} {la : Nat}
    (htab : s.hasTable (c, vpn la) = true) : Stops false (copyDup e s c k la) := by
  unfold copyDup
  rcases allocPage_cases e s with ha | ⟨q, -, ha⟩
  · rw [ha]
    intro err h
    cases h
    exact ⟨rfl, rfl⟩
  · rw [ha]
    dsimp only
    have htab' : ((grab s q).copyPage q (s.leaf (k, vpn la)).ppn).hasTable (c, vpn la) = true :=
      htab
    rw [pageInsert_of_hasTable e htab']
    dsimp only
    rw [if_pos rfl]
    exact .ok _

omit [Fintype κ] in
/-- One round of the loop moves on. -/
theorem copyRangeStep_stops (e : PageOracle) (c k : κ) (share : Bool) (lo : Nat) (s : Vm κ) :
    Stops share (copyRangeStep e c k share lo s) ∧
      ∀ ret next s', copyRangeStep e c k share lo s = .ok (ret, next, s') → ret = 0 →
        lo < next := by
  have hskip : lo < roundDown (lo + ptSize) ptSize := by
    unfold roundDown ptSize pgSize
    omega
  have hpage : lo < lo + pgSize := by
    unfold pgSize
    omega
  unfold copyRangeStep
  rw [getPte_read]
  cases s.hasTable (k, vpn lo) with
  -- No table at this address: the walk goes on behind it.
  | false =>
      refine ⟨.ok _, ?_⟩
      intro ret next s' h _
      simp only [Except.ok.injEq, Prod.mk.injEq] at h
      exact h.2.1 ▸ hskip
  | true =>
      dsimp only
      split
      -- A page that the parent has. The table of the child may be refused, and then the call ends.
      · have htab := getPte_hasTable e s c lo true
        generalize getPte e s c lo true = r at *
        obtain ⟨ok, t⟩ := r
        cases ok with
        | false =>
            refine ⟨.ok _, ?_⟩
            intro ret next s' h h0
            simp only [Except.ok.injEq, Prod.mk.injEq] at h
            rw [← h.1] at h0
            cases h0
        | true =>
            dsimp only
            cases share with
            | true =>
                refine ⟨.ok _, ?_⟩
                intro ret next s' h _
                simp only [if_true, Except.ok.injEq, Prod.mk.injEq] at h
                exact h.2.1 ▸ hpage
            | false =>
                constructor
                · exact (copyDup_stops e (htab rfl)).bind fun _ _ => .ok _
                · intro ret next s' h _
                  obtain ⟨⟨r, u⟩, -, h⟩ := Halt.bind_eq_ok.mp h
                  have h' := Except.ok.inj h
                  simp only [Prod.mk.injEq] at h'
                  exact h'.2.1 ▸ hpage
      · refine ⟨.ok _, ?_⟩
        intro ret next s' h _
        simp only [Except.ok.injEq, Prod.mk.injEq] at h
        exact h.2.1 ▸ hpage

omit [Fintype κ] in
/-- The loop ends within `hi` rounds. -/
theorem copyRangeLoop_stops (e : PageOracle) (c k : κ) (share : Bool) (hi : Nat) :
    ∀ (fuel lo : Nat) (s : Vm κ), 0 < fuel → hi ≤ lo + fuel →
      Stops share (copyRangeLoop e c k share hi fuel lo s) := by
  intro fuel
  induction fuel with
  | zero =>
      intro lo s hpos
      cases hpos
  | succ fuel ih =>
      intro lo s _ hle
      obtain ⟨hstops, hnext⟩ := copyRangeStep_stops e c k share lo s
      rw [copyRangeLoop]
      apply hstops.bind
      rintro ⟨ret, next, t⟩ hstep
      dsimp only
      split
      · exact .ok _
      · rename_i hret
        split
        · rename_i hgo
          have hlt := hnext ret next t hstep (by omega)
          exact ih next t (by omega) (by omega)
        · exact .ok _

omit [Fintype κ] in
/-- `copy_range` of a range of the user stops only for want of memory, and not at all when it
shares. -/
theorem copyRange_stops (e : PageOracle) {c k : κ} {share : Bool} {lo hi : Nat} (s : Vm κ)
    (hlo : lo % pgSize = 0) (hhi : hi % pgSize = 0) (hacc : userAccess lo hi = true) :
    Stops share (copyRange e s c k lo hi share) := by
  unfold copyRange
  rw [if_pos ⟨hlo, hhi, hacc⟩]
  simp only [userAccess, Bool.and_eq_true, decide_eq_true_eq] at hacc
  exact copyRangeLoop_stops e c k share hi hi lo s (by omega) (by omega)

/-- No assertion of `dup_mmap` fails but those on memory. -/
theorem dupMmapLoop_stops (e : PageOracle) {c k : κ} {share : Bool} :
    ∀ (left : List Vma) (done : MmStruct) (s : Vm κ),
      MmWf ⟨left.reverse ++ done.mmapList, none, 0⟩ →
      Stops share (dupMmapLoop e c k share left done s) := by
  intro left
  induction left with
  | nil => exact fun done s _ => .ok _
  | cons vma left ih =>
      intro done s hwf
      have hlist : (vma :: left).reverse ++ done.mmapList =
          left.reverse ++ (vma :: done.mmapList) := by
        rw [List.reverse_cons, List.append_assoc]
        rfl
      rw [hlist] at hwf
      obtain ⟨-, hdone, -⟩ := List.pairwise_append.mp hwf.sorted
      obtain ⟨hlo, hhi, hbase, hlt, htop⟩ := hwf.area vma (by simp)
      have hins : insertVmaStruct done ⟨vma.vmStart, vma.vmEnd, vma.vmFlags⟩ =
          .ok { done with mmapList := vma :: done.mmapList, mapCount := done.mapCount + 1 } :=
        insertVmaStruct_front hlt hdone fun w hw => (hwf.area w (by simp [hw])).2.2.2.1
      rw [dupMmapLoop, hins]
      apply Stops.bind (.ok _)
      intro done' hdone'
      cases hdone'
      have hacc : userAccess vma.vmStart vma.vmEnd = true := by
        simp [userAccess, hbase, hlt, htop]
      apply (copyRange_stops e s hlo hhi hacc).bind
      rintro ⟨ret, t⟩ -
      dsimp only
      split
      · exact .ok _
      · exact ih { done with mmapList := vma :: done.mmapList, mapCount := done.mapCount + 1 } t hwf

/-- A fork that had the memory it needed. -/
theorem Good.fork {sys : UserSys κ} (h : Good sys) {k c : κ} {mm : MmStruct} {vm : Vm κ}
    (hk : sys.mms k = some mm) (hc : sys.mms c = none)
    (hcop : Copied sys.vm vm k c (InAreas mm.mmapList)) :
    Good ⟨vm, Function.update sys.mms c (some ⟨mm.mmapList, none, mm.mmapList.length⟩)⟩ := by
  have hck : k ≠ c := by
    rintro rfl
    rw [hk] at hc
    cases hc
  have hold : ∀ j, j ≠ c → Function.update sys.mms c (some ⟨mm.mmapList, none, mm.mmapList.length⟩) j = sys.mms j :=
    fun j hj => Function.update_of_ne hj _ _
  have hnew : Function.update sys.mms c (some ⟨mm.mmapList, none, mm.mmapList.length⟩) c = some ⟨mm.mmapList, none, mm.mmapList.length⟩ :=
    Function.update_self ..
  constructor
  case ref => exact hcop.ref
  case priv => exact hcop.priv
  case cow =>
    intro j v hv hcow
    dsimp only at hv hcow ⊢
    -- A page of the parent or the child in an area was part of the copy; all others are as before.
    by_cases hin : (j = k ∨ j = c) ∧ InAreas mm.mmapList v
    · obtain ⟨hj, hin⟩ := hin
      rcases hj with rfl | rfl
      · exact ⟨mm, (hold j hck).trans hk, hin⟩
      · exact ⟨⟨mm.mmapList, none, mm.mmapList.length⟩, hnew, hin⟩
    · have hleaf := hcop.frame (j, v) hin
      rw [hleaf] at hv hcow
      obtain ⟨w, hw, hin'⟩ := h.cow j v hv hcow
      have hjc : j ≠ c := by
        rintro rfl
        rw [hc] at hw
        cases hw
      exact ⟨w, (hold j hjc).trans hw, hin'⟩
  -- The child has the list of its parent, with no cached area.
  case wf =>
    intro j w hw
    dsimp only at hw
    by_cases hjc : j = c
    · subst hjc
      rw [hnew] at hw
      cases hw
      have hmm := h.wf k mm hk
      exact ⟨hmm.sorted, hmm.area, fun _ hno => by cases hno⟩
    · exact h.wf j w ((hold j hjc).symm.trans hw)
  case empty =>
    intro j hj v
    dsimp only at hj ⊢
    have hjc : j ≠ c := by
      rintro rfl
      rw [hnew] at hj
      cases hj
    rw [hold j hjc] at hj
    have hjk : j ≠ k := by
      rintro rfl
      rw [hk] at hj
      cases hj
    rw [hcop.frame (j, v) (fun hin => hin.1.elim hjk hjc)]
    exact h.empty j hj v

/-- The child has the pages of its parent. -/
theorem fork_mem_child {a : PrivateSys κ} {k : κ} (c : κ) {v : Vpn} {vmas : List Vma}
    (hareas : a.areas k = some vmas) (hin : InAreas vmas v) :
    (a.fork k c).mem (c, v) = a.mem (k, v) := by
  have hin' : InAreas ((a.areas k).getD []) v := by
    rw [hareas]
    exact hin
  simp only [PrivateSys.fork, if_true, if_pos hin']

/-- The child has nothing outside the areas of its parent. -/
theorem fork_mem_outside {a : PrivateSys κ} {k : κ} (c : κ) {v : Vpn} {vmas : List Vma}
    (hareas : a.areas k = some vmas) (hin : ¬ InAreas vmas v) :
    (a.fork k c).mem (c, v) = none := by
  have hin' : ¬ InAreas ((a.areas k).getD []) v := by
    rw [hareas]
    exact hin
  simp only [PrivateSys.fork, if_true, if_neg hin']

/-- A fork leaves the other processes alone. -/
theorem fork_mem_other (a : PrivateSys κ) (k : κ) {c j : κ} (hj : j ≠ c) (v : Vpn) :
    (a.fork k c).mem (j, v) = a.mem (j, v) := by
  simp only [PrivateSys.fork, if_neg hj]

/-- The memory after such a fork is the one of the abstract machine. -/
theorem absOf_fork {sys : UserSys κ} (h : Good sys) {k c : κ} {mm : MmStruct} {vm : Vm κ}
    (hk : sys.mms k = some mm) (hc : sys.mms c = none)
    (hcop : Copied sys.vm vm k c (InAreas mm.mmapList)) :
    absOf ⟨vm, Function.update sys.mms c (some ⟨mm.mmapList, none, mm.mmapList.length⟩)⟩ =
      (absOf sys).fork k c := by
  have hareas : (absOf sys).areas k = some mm.mmapList := by
    show (sys.mms k).map MmStruct.mmapList = some mm.mmapList
    rw [hk]
    rfl
  have hmem : pageOf vm = ((absOf sys).fork k c).mem := by
    funext x
    obtain ⟨j, v⟩ := x
    by_cases hjc : j = c
    · subst hjc
      by_cases hin : InAreas mm.mmapList v
      · rw [fork_mem_child j hareas hin]
        exact hcop.child v hin
      · rw [fork_mem_outside j hareas hin, hcop.pageOf_frame (fun hx => hin hx.2)]
        exact pageOf_of_invalid (h.empty j hc v)
    · rw [fork_mem_other _ _ hjc]
      by_cases hin : j = k ∧ InAreas mm.mmapList v
      · obtain ⟨rfl, hin⟩ := hin
        exact hcop.parent v hin
      · exact hcop.pageOf_frame fun hx => hin ⟨hx.1.resolve_right hjc, hx.2⟩
  have hareas' : areasOf ⟨vm, Function.update sys.mms c (some ⟨mm.mmapList, none, mm.mmapList.length⟩)⟩ =
      ((absOf sys).fork k c).areas := by
    show _ = Function.update (absOf sys).areas c (some (((absOf sys).areas k).getD []))
    rw [hareas]
    funext j
    unfold areasOf
    dsimp only
    by_cases hjc : j = c
    · subst hjc
      rw [Function.update_self, Function.update_self]
      rfl
    · rw [Function.update_of_ne hjc, Function.update_of_ne hjc]
      rfl
  show PrivateSys.mk _ _ = _
  rw [hmem, hareas']

/-- `dup_mmap` fails only when memory ran out. -/
theorem dupMmapLoop_ret {e : PageOracle} {c k : κ} {share : Bool} :
    ∀ (left : List Vma) (done mm : MmStruct) (s s' : Vm κ) (ret : Int),
      dupMmapLoop e c k share left done s = .ok (ret, mm, s') → ret ≠ 0 → s'.refused = true := by
  intro left
  induction left with
  | nil =>
      intro done mm s s' ret h hret
      rw [dupMmapLoop] at h
      simp only [Except.ok.injEq, Prod.mk.injEq] at h
      exact absurd h.1.symm hret
  | cons vma left ih =>
      intro done mm s s' ret h hret
      rw [dupMmapLoop] at h
      obtain ⟨done', -, h⟩ := Halt.bind_eq_ok.mp h
      obtain ⟨⟨r, t⟩, hcopy, h⟩ := Halt.bind_eq_ok.mp h
      dsimp only at h
      split at h
      · rename_i hr
        have h' := Except.ok.inj h
        simp only [Prod.mk.injEq] at h'
        exact h'.2.2 ▸ copyRange_ret hcopy hr
      · exact ih _ _ _ _ _ h hret

/-- A fork does what the abstract machine does. -/
theorem fork_refines {e : PageOracle} {share : Bool} {sys sys' : UserSys κ} (h : Good sys)
    {k c : κ} {obs : UserObs} (hlegal : (UserOp.fork k c).Legal sys)
    (hclean : CleanFork sys (.fork k c))
    (hexec : UserOp.exec e share sys (.fork k c) = .ok (obs, sys'))
    (hmem : sys'.vm.refused = false) :
    Good sys' ∧ (absOf sys).exec (.fork k c) = (obs, absOf sys') := by
  obtain ⟨hk, hc⟩ := hlegal
  obtain ⟨mm, hk⟩ := Option.isSome_iff_exists.mp hk
  have hck : c ≠ k := by
    rintro rfl
    rw [hc] at hk
    cases hk
  dsimp only [UserOp.exec] at hexec
  rw [hk, Option.getD_some] at hexec
  obtain ⟨⟨ret, mm', vm⟩, hdup, hexec⟩ := Halt.bind_eq_ok.mp hexec
  dsimp only at hexec
  split at hexec
  · rename_i hret
    have h' := Except.ok.inj hexec
    simp only [Prod.mk.injEq] at h'
    have href := dupMmapLoop_ret _ _ _ _ _ _ hdup hret
    rw [← h'.2] at hmem
    rw [href] at hmem
    cases hmem
  · rename_i hret
    have hret0 : ret = 0 := by omega
    subst hret0
    have hwf := h.wf k mm hk
    have hpre : CopyPre sys.vm k c (InAreas mm.mmapList.reverse) :=
      ⟨h.ref, h.priv, fun v _ hv => hclean v trivial hv, fun v _ => h.empty c hc v⟩
    have hdone := dupMmapLoop_copied hck mm.mmapList.reverse ⟨[], none, 0⟩ mm' sys.vm vm
      (by simpa using ⟨hwf.sorted, hwf.area, fun _ hno => by cases hno⟩) rfl hpre hdup
    obtain ⟨hmm', hcop⟩ := hdone
    have hcop' : Copied sys.vm vm k c (InAreas mm.mmapList) :=
      hcop.congr fun v => by simp [InAreas]
    rw [List.reverse_reverse, List.append_nil, List.length_reverse, Nat.zero_add] at hmm'
    subst hmm'
    have h' := Except.ok.inj hexec
    simp only [Prod.mk.injEq] at h'
    obtain ⟨rfl, rfl⟩ := h'
    refine ⟨h.fork hk hc hcop', ?_⟩
    rw [absOf_fork h hk hc hcop']
    rfl

/-! ### Runs -/

/-- One operation that has the memory it needs does what the abstract machine does. -/
theorem exec_refines {e : PageOracle} {share : Bool} {sys sys' : UserSys κ} (h : Good sys)
    {op : UserOp κ} {obs : UserObs} (hlegal : op.Legal sys) (hclean : CleanFork sys op)
    (hexec : op.exec e share sys = .ok (obs, sys')) (hmem : sys'.vm.refused = false) :
    Good sys' ∧ (absOf sys).exec op = (obs, absOf sys') := by
  cases op with
  | fork k c => exact fork_refines h hlegal hclean hexec hmem
  | load k addr =>
      dsimp only [UserOp.exec] at hexec
      cases hexec
      refine ⟨h, ?_⟩
      rw [userByte_eq]
      rfl
  | store k addr b =>
      obtain ⟨⟨ok, t⟩, hstore, hdone⟩ := store_refines e h hlegal addr b
      dsimp only [UserOp.exec] at hexec
      rw [hstore] at hexec
      cases hexec
      rcases hdone with href | ⟨hgood, habs⟩
      · rw [href] at hmem
        cases hmem
      · refine ⟨hgood, ?_⟩
        dsimp only [PrivateSys.exec]
        rw [habs]

/-- What can stop one operation. -/
theorem exec_stops {e : PageOracle} {share : Bool} {sys : UserSys κ} (h : Good sys)
    {op : UserOp κ} (hlegal : op.Legal sys) : Stops share (op.exec e share sys) := by
  cases op with
  | fork k c =>
      obtain ⟨mm, hk⟩ := Option.isSome_iff_exists.mp hlegal.1
      dsimp only [UserOp.exec]
      rw [hk, Option.getD_some]
      have hwf := h.wf k mm hk
      apply Stops.bind
      · apply dupMmapLoop_stops
        simpa using ⟨hwf.sorted, hwf.area, fun _ hno => by cases hno⟩
      · rintro ⟨ret, mm', vm⟩ -
        dsimp only
        split
        · exact .ok _
        · exact .ok _
  | load k addr => exact .ok _
  | store k addr b =>
      obtain ⟨out, hstore, -⟩ := store_refines e h hlegal addr b
      dsimp only [UserOp.exec]
      rw [hstore]
      exact .ok _

/-! ### The copying system marks nothing -/

/-- No page of any process is copy-on-write. -/
def NoMark (s : Vm κ) : Prop := ∀ k, NoCow s k fun _ => True

/-- Whether an entry has `PTE_COW` depends on the entries only. -/
theorem NoMark.of_leaf {s s' : Vm κ} (h : NoMark s) (hleaf : s'.leaf = s.leaf) : NoMark s' := by
  intro k v _ hv
  rw [hleaf] at hv ⊢
  exact h k v trivial hv

/-- `page_insert` behind its `get_pte` sets one entry. -/
theorem leaf_insertPte {s : Vm κ} {x : Slot κ} (htab : s.hasTable x = true) (page : Frame)
    (perm : PteFlags) :
    (insertPte s x page perm).leaf = Function.update s.leaf x (pteCreate page perm) := by
  cases ht : tgt s x with
  | none =>
      rw [insertPte_empty ht]
      exact (mapPte_spec htab ht page perm).leaf
  | some q =>
      by_cases hq : q = page
      · subst hq
        rw [insertPte_same ht]
        exact leaf_setLeaf htab
      · rw [insertPte_other ht hq]
        have hrem := pageRemovePte_spec ht
        have hnone : tgt (pageRemovePte s x) x = none := by
          rw [hrem.tgt, Function.update_self]
        rw [(mapPte_spec ((hrem.hasTable x).trans htab) hnone page perm).leaf, hrem.leaf,
          Function.update_idem]

/-- The copy of one page marks no entry. -/
theorem copyDup_noMark {e : PageOracle} {s s' : Vm κ} {c k : κ} {la : Nat} {ret : Int}
    (h : NoMark s) (hv : (s.leaf (k, vpn la)).valid = true)
    (htab : s.hasTable (c, vpn la) = true) (hdup : copyDup e s c k la = .ok (ret, s')) :
    NoMark s' := by
  unfold copyDup at hdup
  rcases allocPage_cases e s with ha | ⟨q, -, ha⟩
  · rw [ha] at hdup
    cases hdup
  · rw [ha] at hdup
    dsimp only at hdup
    have htab' : ((grab s q).copyPage q (s.leaf (k, vpn la)).ppn).hasTable (c, vpn la) = true :=
      htab
    rw [pageInsert_of_hasTable e htab'] at hdup
    dsimp only at hdup
    rw [if_pos rfl] at hdup
    cases hdup
    have hno := (copied_flags _ (h k (vpn la) trivial hv)).2.1
    have hleaf := leaf_insertPte htab' q ((s.leaf (k, vpn la)).flags &&& pteUser)
    have hold : ((grab s q).copyPage q (s.leaf (k, vpn la)).ppn).leaf = s.leaf := rfl
    rw [hold] at hleaf
    intro j v _ hjv
    rw [hleaf] at hjv ⊢
    by_cases hj : (j, v) = (c, vpn la)
    · rw [hj, Function.update_self]
      exact hno
    · rw [Function.update_of_ne hj] at hjv ⊢
      exact h j v trivial hjv

/-- One round of a copying `copy_range` marks no entry. -/
theorem copyRangeStep_noMark {e : PageOracle} {s s' : Vm κ} {c k : κ} {lo next : Nat} {ret : Int}
    (h : NoMark s) (hstep : copyRangeStep e c k false lo s = .ok (ret, next, s')) :
    NoMark s' := by
  unfold copyRangeStep at hstep
  rw [getPte_read] at hstep
  cases hx : s.hasTable (k, vpn lo) with
  | false =>
      rw [hx] at hstep
      simp only [Except.ok.injEq, Prod.mk.injEq] at hstep
      exact hstep.2.2 ▸ h
  | true =>
      rw [hx] at hstep
      dsimp only at hstep
      split at hstep
      · rename_i hv
        obtain ⟨ok, t, hget, hg, htab, -⟩ := getPte_create e c lo s
        rw [hget] at hstep
        have ht : NoMark t := h.of_leaf hg.leaf
        cases ok with
        | false =>
            simp only [Except.ok.injEq, Prod.mk.injEq] at hstep
            exact hstep.2.2 ▸ ht
        | true =>
            simp only [Bool.false_eq_true, if_false] at hstep
            obtain ⟨⟨r, u⟩, hdup, hstep⟩ := Halt.bind_eq_ok.mp hstep
            have hstep' := Except.ok.inj hstep
            simp only [Prod.mk.injEq] at hstep'
            have hv' : (t.leaf (k, vpn lo)).valid = true := by
              rw [hg.leaf]
              exact hv
            exact hstep'.2.2 ▸ copyDup_noMark ht hv' (htab rfl) hdup
      · simp only [Except.ok.injEq, Prod.mk.injEq] at hstep
        exact hstep.2.2 ▸ h

/-- `copy_range` that copies marks no entry. -/
theorem copyRange_noMark {e : PageOracle} {s s' : Vm κ} {c k : κ} {lo hi : Nat} {ret : Int}
    (h : NoMark s) (hcopy : copyRange e s c k lo hi false = .ok (ret, s')) : NoMark s' := by
  have key : ∀ (fuel lo : Nat) (s : Vm κ), NoMark s →
      copyRangeLoop e c k false hi fuel lo s = .ok (ret, s') → NoMark s' := by
    intro fuel
    induction fuel with
    | zero => intro lo s _ hloop; cases hloop
    | succ fuel ih =>
        intro lo s h hloop
        rw [copyRangeLoop] at hloop
        obtain ⟨⟨r, next, t⟩, hstep, hloop⟩ := Halt.bind_eq_ok.mp hloop
        have ht := copyRangeStep_noMark h hstep
        dsimp only at hloop
        split at hloop
        · cases hloop
          exact ht
        · split at hloop
          · exact ih next t ht hloop
          · cases hloop
            exact ht
  unfold copyRange at hcopy
  split at hcopy
  · exact key _ _ _ h hcopy
  · cases hcopy

/-- `dup_mmap` that copies marks no entry. -/
theorem dupMmapLoop_noMark {e : PageOracle} {c k : κ} :
    ∀ (left : List Vma) (done mm : MmStruct) (s s' : Vm κ) (ret : Int), NoMark s →
      dupMmapLoop e c k false left done s = .ok (ret, mm, s') → NoMark s' := by
  intro left
  induction left with
  | nil =>
      intro done mm s s' ret h hdup
      rw [dupMmapLoop] at hdup
      cases hdup
      exact h
  | cons vma left ih =>
      intro done mm s s' ret h hdup
      rw [dupMmapLoop] at hdup
      obtain ⟨done', -, hdup⟩ := Halt.bind_eq_ok.mp hdup
      obtain ⟨⟨r, t⟩, hcopy, hdup⟩ := Halt.bind_eq_ok.mp hdup
      have ht := copyRange_noMark h hcopy
      dsimp only at hdup
      split at hdup
      · cases hdup
        exact ht
      · exact ih _ _ _ _ _ ht hdup

/-- In the copying system a store fault is served to no one. -/
theorem userStore_noMark {e : PageOracle} {sys : UserSys κ} (hg : Good sys) (h : NoMark sys.vm)
    {k : κ} (hk : (sys.mms k).isSome = true) {addr : Nat} {b : UInt8} {fuel : Nat}
    {out : Bool × UserSys κ} (hstore : userStore e (fuel + 1) sys k addr b = .ok out)
    (hmem : out.2.vm.refused = false) : NoMark out.2.vm := by
  obtain ⟨ret, sys', hfault, -, -, hcases⟩ := storePageFault_spec e hg hk addr
  have hfail : (if ret ≠ 0 then .ok (false, sys') else userStore e fuel sys' k addr b) = .ok out →
      NoMark out.2.vm := by
    intro hout
    rcases hcases with ⟨hne, hvm, -⟩ | ⟨hne, href⟩ | ⟨-, haddr, hv, hc, -⟩
    · rw [if_pos hne] at hout
      cases hout
      exact h.of_leaf (by rw [hvm])
    · rw [if_pos hne] at hout
      cases hout
      rw [href] at hmem
      cases hmem
    · have hno := h k (vpn addr) trivial hv
      rw [hc] at hno
      cases hno
  rw [userStore, hfault] at hstore
  dsimp only at hstore
  split at hstore
  · exact hfail hstore
  · split at hstore
    · cases hstore
      exact h.of_leaf rfl
    · exact hfail hstore

/-- In the copying system no operation marks an entry. -/
theorem exec_noMark {e : PageOracle} {sys sys' : UserSys κ} (hg : Good sys) (h : NoMark sys.vm)
    {op : UserOp κ} {obs : UserObs} (hlegal : op.Legal sys)
    (hexec : op.exec e false sys = .ok (obs, sys')) (hmem : sys'.vm.refused = false) :
    NoMark sys'.vm := by
  cases op with
  | fork k c =>
      dsimp only [UserOp.exec] at hexec
      obtain ⟨⟨ret, mm, vm⟩, hdup, hexec⟩ := Halt.bind_eq_ok.mp hexec
      have hvm := dupMmapLoop_noMark _ _ _ _ _ _ h hdup
      dsimp only at hexec
      split at hexec
      · cases hexec
        exact hvm
      · cases hexec
        exact hvm
  | load k addr =>
      dsimp only [UserOp.exec] at hexec
      cases hexec
      exact h
  | store k addr b =>
      dsimp only [UserOp.exec] at hexec
      obtain ⟨out, hstore, hexec⟩ := Halt.bind_eq_ok.mp hexec
      cases hexec
      exact userStore_noMark hg h hlegal hstore hmem

/-! ### Both systems -/

/-- A run in which every operation had the memory it needed, and every state with the
operation in it meets `C`. -/
inductive UserRun (e : PageOracle) (share : Bool) (C : UserSys κ → UserOp κ → Prop)
    (s : UserSys κ) : List (UserOp κ) → List UserObs → UserSys κ → Prop
  | nil : UserRun e share C s [] [] s
  | snoc {ops : List (UserOp κ)} {obs : List UserObs} {t u : UserSys κ} (op : UserOp κ)
      {o : UserObs} : UserRun e share C s ops obs t → op.Legal t → C t op →
      op.exec e share t = .ok (o, u) → u.vm.refused = false →
      UserRun e share C s (ops ++ [op]) (obs ++ [o]) u

/-- A run of the abstract machine. -/
noncomputable def PrivateSys.run (a : PrivateSys κ) (ops : List (UserOp κ)) :
    List UserObs × PrivateSys κ :=
  ops.foldl (fun out op => (out.1 ++ [(out.2.exec op).1], (out.2.exec op).2)) ([], a)

/-- A run of either system is one of the abstract machine, if every fork is clean. -/
theorem UserRun.refines {e : PageOracle} {share : Bool} {s t : UserSys κ}
    {ops : List (UserOp κ)} {obs : List UserObs} (hs : Good s)
    (h : UserRun e share CleanFork s ops obs t) :
    Good t ∧ PrivateSys.run (absOf s) ops = (obs, absOf t) := by
  induction h with
  | nil => exact ⟨hs, rfl⟩
  | snoc op _ hlegal hclean hexec hmem ih =>
      obtain ⟨hgood, hrun⟩ := ih
      obtain ⟨hgood', habs⟩ := exec_refines hgood hlegal hclean hexec hmem
      refine ⟨hgood', ?_⟩
      unfold PrivateSys.run at hrun ⊢
      rw [List.foldl_append, hrun]
      simp only [List.foldl_cons, List.foldl_nil, habs]

/-- Every fork of the copying system is clean. -/
theorem UserRun.clean_of_copying {e : PageOracle} {C : UserSys κ → UserOp κ → Prop}
    {s t : UserSys κ} {ops : List (UserOp κ)} {obs : List UserObs} (hs : Good s)
    (hm : NoMark s.vm) (h : UserRun e false C s ops obs t) :
    NoMark t.vm ∧ UserRun e false CleanFork s ops obs t := by
  induction h with
  | nil => exact ⟨hm, .nil⟩
  | snoc op _ hlegal _ hexec hmem ih =>
      obtain ⟨hmark, hrun⟩ := ih
      refine ⟨exec_noMark (hrun.refines hs).1 hmark hlegal hexec hmem,
        hrun.snoc op hlegal ?_ hexec hmem⟩
      cases op with
      | fork k c => exact hmark k
      | load k addr => trivial
      | store k addr b => trivial

/-- Where a tree of forks starts: page tables with exact counts, no page that two entries
may write, and no page that is copy-on-write yet. -/
structure Root (sys : UserSys κ) : Prop where
  ref : RefInv sys.vm
  priv : Private sys.vm
  mark : NoMark sys.vm
  wf : ∀ k mm, sys.mms k = some mm → MmWf mm
  empty : ∀ k, sys.mms k = none → ∀ v, (sys.vm.leaf (k, v)).valid = false

/-- The invariant holds at the start. -/
theorem Root.good {sys : UserSys κ} (h : Root sys) : Good sys where
  ref := h.ref
  priv := h.priv
  cow := by
    intro k v hv hc
    rw [h.mark k v trivial hv] at hc
    cases hc
  wf := h.wf
  empty := h.empty

/-- A store of one process is nothing to another. -/
theorem byte_of_store (a : PrivateSys κ) {j k : κ} (hjk : j ≠ k) (addr addr' : Nat) (b : UInt8) :
    (a.store k addr b).2.byte j addr' = a.byte j addr' := by
  unfold PrivateSys.store
  split
  · split
    · rfl
    · split
      · unfold PrivateSys.byte
        dsimp only
        rw [Function.update_of_ne fun heq => hjk (congrArg Prod.fst heq)]
      · rfl
  · rfl

/-- No store of one process changes what another reads. -/
def Isolated (e : PageOracle) (share : Bool) (sys : UserSys κ) : Prop :=
  ∀ k addr b o u, (sys.mms k).isSome = true →
    UserOp.exec e share sys (.store k addr b) = .ok (o, u) → u.vm.refused = false →
      ∀ j addr', j ≠ k → userByte u.vm j addr' = userByte sys.vm j addr'

/-- The isolation of processes is a consequence of the invariant. -/
theorem Good.isolated {sys : UserSys κ} (h : Good sys) (e : PageOracle) (share : Bool) :
    Isolated e share sys := by
  intro k addr b o u hk hexec hmem j addr' hjk
  obtain ⟨-, habs⟩ := exec_refines h (show (UserOp.store k addr b).Legal sys from hk) trivial hexec hmem
  have hu : absOf u = ((absOf sys).store k addr b).2 := (Prod.mk.inj habs).2.symm
  rw [userByte_eq, userByte_eq, hu]
  exact byte_of_store _ hjk ..

/-- Whatever a tree of processes does, in whatever order, as long as memory lasts and no
process forks that has copy-on-write pages: the sharing system and the copying system
show the processes the same return values, bytes and failed stores. In the states reached
they read the same everywhere, no store of one process changes what another reads, and
the next operation goes through unless memory runs out. -/
theorem copy_on_write_is_private {e e' : PageOracle} {s t t' : UserSys κ}
    {ops : List (UserOp κ)} {obs obs' : List UserObs} (hs : Root s)
    (h : UserRun e true CleanFork s ops obs t)
    (h' : UserRun e' false (fun _ _ => True) s ops obs' t') :
    obs = obs' ∧ (∀ k addr, userByte t.vm k addr = userByte t'.vm k addr) ∧
      Isolated e true t ∧ Isolated e' false t' ∧
      (∀ op : UserOp κ, op.Legal t → op.Legal t' ∧ (∃ out, op.exec e true t = .ok out) ∧
        ((∃ out, op.exec e' false t' = .ok out) ∨ op.exec e' false t' = .error .noMem)) := by
  obtain ⟨-, hclean⟩ := h'.clean_of_copying hs.good hs.mark
  obtain ⟨hgood, hrun⟩ := h.refines hs.good
  obtain ⟨hgood', hrun'⟩ := hclean.refines hs.good
  rw [hrun] at hrun'
  simp only [Prod.mk.injEq] at hrun'
  obtain ⟨hobs, habs⟩ := hrun'
  refine ⟨hobs, ?_, hgood.isolated e true, hgood'.isolated e' false, ?_⟩
  · intro k addr
    rw [userByte_eq, userByte_eq, habs]
  · intro op hlegal
    -- The same processes exist in both.
    have halive : ∀ k, (t'.mms k).isSome = (t.mms k).isSome := by
      intro k
      have hareas : areasOf t k = areasOf t' k := congrFun (congrArg PrivateSys.areas habs) k
      unfold areasOf at hareas
      rw [← Option.isSome_map (f := MmStruct.mmapList), ← hareas, Option.isSome_map]
    have hlegal' : op.Legal t' := by
      cases op with
      | fork k c =>
          refine ⟨(halive k).trans hlegal.1, ?_⟩
          have hc := halive c
          rw [hlegal.2] at hc
          simpa using hc
      | load k addr => exact (halive k).trans hlegal
      | store k addr b => exact (halive k).trans hlegal
    refine ⟨hlegal', ?_, ?_⟩
    · have hstops : Stops true (op.exec e true t) := exec_stops hgood hlegal
      cases hx : op.exec e true t with
      | ok out => exact ⟨out, rfl⟩
      | error err => cases (hstops err hx).2
    · have hstops : Stops false (op.exec e' false t') := exec_stops hgood' hlegal'
      cases hx : op.exec e' false t' with
      | ok out => exact Or.inl ⟨out, rfl⟩
      | error err => exact Or.inr (by rw [(hstops err hx).1])

/-! ### A tree of two forks -/

/-- Operations one after the other, each legal and with the memory it needs. -/
def execAll (e : PageOracle) (share : Bool) :
    List (UserOp κ) → UserSys κ → Except Halt (List UserObs × UserSys κ)
  | [], sys => .ok ([], sys)
  | op :: ops, sys =>
      if op.Legal sys then do
        let (o, sys) ← op.exec e share sys
        if sys.vm.refused then .error .noMem
        else do
          let (obs, sys) ← execAll e share ops sys
          return (o :: obs, sys)
      else .error .assert

/-- A run, and further operations one after another. -/
theorem UserRun.append_execAll {e : PageOracle} {share : Bool}
    {C : UserSys κ → UserOp κ → Prop} {s : UserSys κ} :
    ∀ {ops' ops : List (UserOp κ)} {obs obs' : List UserObs} {t u : UserSys κ},
      UserRun e share C s ops obs t → execAll e share ops' t = .ok (obs', u) →
      (∀ op ∈ ops', ∀ t, C t op) → UserRun e share C s (ops ++ ops') (obs ++ obs') u := by
  intro ops'
  induction ops' with
  | nil =>
      intro ops obs obs' t u h hall _
      cases hall
      simpa using h
  | cons op ops' ih =>
      intro ops obs obs' t u h hall hC
      rw [execAll] at hall
      split at hall
      · rename_i hlegal
        obtain ⟨⟨o, t₁⟩, hexec, hall⟩ := Halt.bind_eq_ok.mp hall
        dsimp only at hall
        split at hall
        · cases hall
        · rename_i hmem
          obtain ⟨⟨obs₁, u₁⟩, hrest, hall⟩ := Halt.bind_eq_ok.mp hall
          cases hall
          have hstep := h.snoc op hlegal (hC op List.mem_cons_self t) hexec (by simpa using hmem)
          simpa using ih hstep hrest fun op' hop' => hC op' (List.mem_cons_of_mem _ hop')
      · cases hall

/-- One process with one page, at `0x800000`, that it may read and write. -/
def oneProcess : UserSys (Fin 3) where
  vm := (pageInsert inOrder (grab (emptySpaces (Fin 3)) 0) 0 0 0x800000
    (pteU ||| pteR ||| pteW)).2
  mms := fun k => if k = 0 then some onePage else none

/-- One process without pages, as a start. -/
theorem oneProcess_root : Root oneProcess := by
  have hfresh : Fresh (emptySpaces (Fin 3)) := ⟨fun _ _ => rfl, fun _ _ => rfl, rfl⟩
  have hone := hfresh.logInv.step (.take (p := 0) rfl)
  have hpage : UserPage (grab (emptySpaces (Fin 3)) 0) 0 := by
    refine ⟨by decide, ?_⟩
    rintro ⟨k, i, d, hd, -⟩
    cases hd
  obtain ⟨ret, t, heq, hsteps, -⟩ := pageInsert_steps inOrder (0 : Fin 3) 0x800000
    (pteU ||| pteR ||| pteW) (hone.counted 0 hpage)
  have href : RefInv oneProcess.vm := by
    show RefInv (pageInsert inOrder (grab (emptySpaces (Fin 3)) 0) 0 0 0x800000 _).2
    rw [heq]
    exact (hone.steps hsteps).ref
  -- The only entry is the one that was inserted.
  have hleaf : oneProcess.vm.leaf = Function.update (fun _ => .zero) (0, vpn 0x800000)
      (pteCreate 0 (pteU ||| pteR ||| pteW)) := by
    have hret : (pageInsert inOrder (grab (emptySpaces (Fin 3)) 0) 0 0 0x800000
        (pteU ||| pteR ||| pteW)).1 = 0 := by decide +kernel
    show (pageInsert inOrder (grab (emptySpaces (Fin 3)) 0) 0 0 0x800000
      (pteU ||| pteR ||| pteW)).2.leaf = _
    unfold pageInsert at hret ⊢
    obtain ⟨ok, u, hget, hg, htab, -⟩ := getPte_create inOrder (0 : Fin 3) 0x800000
      (grab (emptySpaces (Fin 3)) 0)
    rw [hget] at hret ⊢
    cases ok with
    | false => cases hret
    | true =>
        dsimp only
        rw [leaf_insertPte (htab rfl), hg.leaf]
        rfl
  have hother : ∀ x, x ≠ (0, vpn 0x800000) → (oneProcess.vm.leaf x).valid = false := by
    intro x hx
    rw [hleaf, Function.update_of_ne hx]
    rfl
  constructor
  case ref => exact href
  case priv =>
    intro x y p hxy hx hy
    by_cases hx0 : x = (0, vpn 0x800000)
    · have hy' := tgt_none_of_invalid (hother y (fun hy0 => hxy (hx0.trans hy0.symm)))
      rw [hy'] at hy
      cases hy
    · rw [tgt_none_of_invalid (hother x hx0)] at hx
      cases hx
  case mark =>
    intro k v _ hv
    by_cases hx : (k, v) = (0, vpn 0x800000)
    · rw [hx, hleaf, Function.update_self]
      decide
    · rw [hother _ hx] at hv
      cases hv
  case wf =>
    intro k mm hk
    have hmm : mm = onePage := by
      unfold oneProcess at hk
      dsimp only at hk
      split at hk
      · exact (Option.some.inj hk).symm
      · cases hk
    subst hmm
    exact ⟨by decide, by decide, fun _ hno => by cases hno⟩
  case empty =>
    intro k hk v
    apply hother
    intro heq
    have hk0 : k = 0 := congrArg Prod.fst heq
    subst hk0
    cases hk

/-- A process forks twice, and the second child stores. -/
def twoForks : List (UserOp (Fin 3)) := [.fork 0 1, .fork 0 2, .store 2 0x800000 7]

/-- At the second fork the page is copy-on-write already. The entry of the second child
has neither `PTE_W` nor `PTE_COW`, and the store fails. In the copying system it does
not. -/
theorem second_fork_loses_write : ∃ t t' : UserSys (Fin 3), Root oneProcess ∧
    UserRun inOrder true (fun _ _ => True) oneProcess twoForks
      [.forked 0, .forked 0, .stored false] t ∧
    UserRun inOrder false (fun _ _ => True) oneProcess twoForks
      [.forked 0, .forked 0, .stored true] t' := by
  have hshare : (execAll inOrder true twoForks oneProcess).map Prod.fst =
      .ok [.forked 0, .forked 0, .stored false] := by decide +kernel
  have hcopy : (execAll inOrder false twoForks oneProcess).map Prod.fst =
      .ok [.forked 0, .forked 0, .stored true] := by decide +kernel
  cases h : execAll inOrder true twoForks oneProcess with
  | error err => rw [h] at hshare; cases hshare
  | ok out =>
      cases h' : execAll inOrder false twoForks oneProcess with
      | error err => rw [h'] at hcopy; cases hcopy
      | ok out' =>
          rw [h] at hshare
          rw [h'] at hcopy
          obtain ⟨obs, t⟩ := out
          obtain ⟨obs', t'⟩ := out'
          cases hshare
          cases hcopy
          exact ⟨t, t', oneProcess_root, .append_execAll .nil h fun _ _ _ => trivial,
            .append_execAll .nil h' fun _ _ _ => trivial⟩

/-- What the parent and its first child do after the fork. -/
def afterFork : List (UserOp (Fin 3)) :=
  [.store 1 0x800000 7, .load 0 0x800000, .load 1 0x800000, .store 0 0x800000 9,
    .load 1 0x800000, .store 1 0x900000 1]

/-- In both systems the two stores are private, and the store outside every area fails. -/
theorem store_after_fork : ∃ t t' : UserSys (Fin 3),
    UserRun inOrder true CleanFork oneProcess (.fork 0 1 :: afterFork)
      [.forked 0, .stored true, .loaded (some 0), .loaded (some 7), .stored true,
        .loaded (some 7), .stored false] t ∧
      (∀ k addr, userByte t.vm k addr = userByte t'.vm k addr) ∧ Isolated inOrder true t := by
  -- Both systems are run, and only what they observe is compared.
  have hfork : ((UserOp.fork 0 1).exec inOrder true oneProcess).map
      (fun out => (out.1, out.2.vm.refused)) = .ok (.forked 0, false) := by decide +kernel
  have hrest : (((UserOp.fork 0 1).exec inOrder true oneProcess) >>= fun out =>
      (execAll inOrder true afterFork out.2).map Prod.fst) =
        .ok [.stored true, .loaded (some 0), .loaded (some 7), .stored true, .loaded (some 7),
          .stored false] := by decide +kernel
  have hcopy : (execAll inOrder false (.fork 0 1 :: afterFork) oneProcess).map Prod.fst =
      .ok [.forked 0, .stored true, .loaded (some 0), .loaded (some 7), .stored true,
        .loaded (some 7), .stored false] := by decide +kernel
  cases h₁ : (UserOp.fork 0 1).exec inOrder true oneProcess with
  | error err => rw [h₁] at hfork; cases hfork
  | ok out =>
      obtain ⟨o, s⟩ := out
      rw [h₁] at hfork hrest
      have hfork' := Except.ok.inj hfork
      simp only [Prod.mk.injEq] at hfork'
      obtain ⟨rfl, hmem⟩ := hfork'
      have hrun : UserRun inOrder true CleanFork oneProcess [.fork 0 1] [.forked 0] s :=
        .snoc (.fork 0 1) .nil ⟨rfl, rfl⟩ (oneProcess_root.mark 0) h₁ hmem
      cases h₂ : execAll inOrder true afterFork s with
      | error err =>
          have hrest' : ((execAll inOrder true afterFork s).map Prod.fst) = _ := hrest
          rw [h₂] at hrest'
          cases hrest'
      | ok out =>
          obtain ⟨obs, t⟩ := out
          have hrest' : ((execAll inOrder true afterFork s).map Prod.fst) = _ := hrest
          rw [h₂] at hrest'
          cases hrest'
          have hplain : ∀ op ∈ afterFork, ∀ t : UserSys (Fin 3), CleanFork t op := by
            simp [afterFork, CleanFork]
          have hshared := hrun.append_execAll h₂ hplain
          cases h₃ : execAll inOrder false (.fork 0 1 :: afterFork) oneProcess with
          | error err => rw [h₃] at hcopy; cases hcopy
          | ok out' =>
              obtain ⟨obs', t'⟩ := out'
              rw [h₃] at hcopy
              cases hcopy
              have hcopied := UserRun.append_execAll (C := fun _ _ => True) .nil h₃
                fun _ _ _ => trivial
              obtain ⟨-, hbytes, hisolated, -⟩ :=
                copy_on_write_is_private oneProcess_root hshared hcopied
              exact ⟨t, t', hshared, hbytes, hisolated⟩

end Ucore.Proofs.Mm
