import Ucore.Process.MmRun
import Ucore.Proofs.Mm.UserMemCheck
import Ucore.Proofs.Mm.PrivateMem

/-!
# `Ucore.Proofs.Process.MmRun`: the lists of areas over whole runs

`find_vma` looks for the area that the start of a request lies in. So `mm_map` does not see an area
that begins behind the start of the request, and `insert_vma_struct` stops the machine
(`mmMap_meets_area`). As long as every request meets `RequestOk`, the lists stay in order and no
assertion fails (`mmMap_lists_ok`).

`dup_mmap` inserts the areas of the parent one by one into the new structure. It goes through them
in descending order, so each one comes to the front of the list and no assertion fails
(`dup_mmap_loop_ends`).

`MmOp.exec_wf` keeps `MmWf` over any call that returns, with no condition: an assertion stops the
call before the list is wrong. The condition is what makes every call return, and every new area the
one that was asked for. `mmMap_lists_ok` has both directions for the next request.
-/

set_option autoImplicit false
set_option linter.unusedSectionVars false

namespace Ucore.Proofs.Process

open Ucore.Lib Ucore.Mm Ucore.Process Ucore.Proofs.Mm

variable {κ : Type} [DecidableEq κ] {al : Allocators} {sys sys' : MmSys κ}

/-- The empty list of areas is in order. -/
theorem mmWf_noAreas : MmWf noAreas where
  sorted := List.Pairwise.nil
  area := fun _ hw => by cases hw
  cache := fun _ hw => by cases hw

/-- Some of the areas, in the same order, and nothing remembered. -/
theorem MmWf.suffix {before after : List Vma} {n : Nat} (h : MmWf ⟨before ++ after, none, 0⟩) :
    MmWf ⟨after, none, n⟩ :=
  ⟨(List.pairwise_append.mp h.sorted).2.1, fun w hw => h.area w (List.mem_append_right _ hw),
    fun _ hw => by cases hw⟩

/-! ### `dup_mmap` -/

/-- `kmalloc` leaves the areas. -/
theorem kmallocOr_ends {ret : Int} (t : NewMm κ) :
    (kmallocOr al ret : NewMmM κ Nat).Ends t (fun _ t' => t'.mm = t.mm) (fun _ t' => t'.mm = t.mm)
      fun _ => False := by
  unfold Routine.Ends kmallocOr
  cases t.heap.kmalloc al.heap with
  | mk p heap => cases p <;> rfl

/-- A function of the memory leaves the areas. -/
theorem onVm_ends {α : Type} {f : Vm κ → Except Halt (α × Vm κ)} (t : NewMm κ) {H : Halt → Prop}
    (hstops : ∀ halt, f t.vm = .error halt → H halt) :
    (onVm f).Ends t (fun _ t' => t'.mm = t.mm) (fun _ _ => False) H := by
  unfold Routine.Ends onVm
  cases hf : f t.vm with
  | error halt => exact hstops halt hf
  | ok r => rfl

/-- The loop of `dup_mmap`, with the areas that are left in descending order: they all go to the
front of the list. It stops only when `copy_range` finds no page. -/
theorem dup_mmap_loop_ends {c k : κ} : ∀ (left : List Vma) (t : NewMm κ),
    MmWf ⟨left.reverse ++ t.mm.mmapList, none, 0⟩ → t.mm.mmapCache = none →
    (dup_mmap_loop al c k left).Ends t (fun _ t' => MmWf t'.mm) (fun _ t' => MmWf t'.mm)
      fun halt => halt = .noMem := by
  have hlast : ∀ {before : List Vma} {mm : MmStruct}, MmWf ⟨before ++ mm.mmapList, none, 0⟩ →
      mm.mmapCache = none → MmWf mm := by
    intro before mm hwf hcache
    have hsuffix := MmWf.suffix (n := mm.mapCount) hwf
    rw [← hcache] at hsuffix
    exact hsuffix
  intro left
  induction left with
  | nil => exact fun t hwf hcache => hlast hwf hcache
  | cons vma left ih =>
      intro t hwf hcache
      have hlist : (vma :: left).reverse ++ t.mm.mmapList =
          left.reverse ++ (vma :: t.mm.mmapList) := by
        rw [List.reverse_cons, List.append_assoc]
        rfl
      have hmm := hlast hwf hcache
      rw [hlist] at hwf
      obtain ⟨-, hdone, -⟩ := List.pairwise_append.mp hwf.sorted
      obtain ⟨hlo, hhi, hbase, hlt, htop⟩ := hwf.area vma (by simp)
      have hacc : userAccess vma.vmStart vma.vmEnd = true := userAccess_iff.mpr ⟨hbase, hlt, htop⟩
      have hins : insertVmaStruct t.mm ⟨vma.vmStart, vma.vmEnd, vma.vmFlags⟩ =
          .ok { t.mm with mmapList := vma :: t.mm.mmapList, mapCount := t.mm.mapCount + 1 } :=
        insertVmaStruct_front hlt hdone fun w hw => (hwf.area w (by simp [hw])).2.2.2.1
      unfold dup_mmap_loop
      refine (kmallocOr_ends t).seq (fun p t₁ hmm₁ => ?_)
        (fun _ t₁ hmm₁ => by rw [hmm₁]; exact hmm) fun _ hno => hno.elim
      rw [Routine.ends_bind]
      unfold Routine.Ends Process.insert_vma_struct
      rw [hmm₁, hins]
      refine (onVm_ends _ fun halt hhalt =>
        ((copyRange_stops al.pages _ hlo hhi hacc : Stops false _) halt hhalt).1).seq
        (fun ret t₂ hmm₂ => ?_) (fun _ _ hno => hno.elim) fun _ hstop => hstop
      dsimp only at hmm₂
      rw [Routine.ends_ite]
      split
      · rw [Routine.ends_fail, hmm₂]
        exact hlast hwf hcache
      · exact ih t₂ (by rw [hmm₂]; exact hwf) (by rw [hmm₂]; exact hcache)

/-- `dup_mmap` into a structure without areas. -/
theorem dup_mmap_ends {c k : κ} {oldmm : MmStruct} (hold : MmWf oldmm) (t : NewMm κ)
    (ht : t.mm = noAreas) :
    (dup_mmap al c k oldmm).Ends t (fun _ t' => MmWf t'.mm) (fun _ t' => MmWf t'.mm)
      fun halt => halt = .noMem := by
  refine dup_mmap_loop_ends oldmm.mmapList.reverse t ?_ (by rw [ht]; rfl)
  rw [ht, List.reverse_reverse]
  show MmWf ⟨oldmm.mmapList ++ [], none, 0⟩
  rw [List.append_nil]
  exact ⟨hold.sorted, hold.area, fun _ hw => by cases hw⟩

/-! ### Runs -/

/-- The condition on a step: a request of `mm_map` meets `RequestOk`. -/
def MmStepOk (sys : MmSys κ) : MmOp κ → Prop
  | .mmMap k addr len _ => RequestOk (sys.mms k) addr len
  | _ => True

/-- One list of areas changes, and stays in order. -/
theorem mmWf_update (h : ∀ j, MmWf (sys.mms j)) {k : κ} {mm : MmStruct} (hmm : MmWf mm) (j : κ) :
    MmWf (Function.update sys.mms k mm j) := by
  by_cases hj : j = k
  · rw [hj, Function.update_self]
    exact hmm
  · rw [Function.update_of_ne hj]
    exact h j

/-- A call that returns leaves the lists in order. -/
theorem MmOp.exec_wf (h : ∀ k, MmWf (sys.mms k)) {op : MmOp κ} (hen : op.Enabled sys)
    (hexec : op.exec al sys = .ok sys') : ∀ k, MmWf (sys'.mms k) := by
  cases op with
  | mmCreate k =>
      obtain rfl := Except.ok.inj hexec
      exact mmWf_update h mmWf_noAreas
  | mmMap k addr len vmFlags =>
      obtain ⟨⟨r, heap, mm⟩, hmap, hret⟩ := Halt.bind_eq_ok.mp hexec
      obtain rfl := Except.ok.inj hret
      exact mmWf_update h (mmMap_spec (h k) hmap).1
  | dupMmap child parent =>
      obtain ⟨⟨r, t⟩, hdup, hret⟩ := Halt.bind_eq_ok.mp hexec
      obtain rfl := Except.ok.inj hret
      have hends : (dup_mmap al child parent (sys.mms parent)).Ends
          ⟨sys.vm, sys.heap, sys.mms child, [], 0⟩ (fun _ t' => MmWf t'.mm)
          (fun _ t' => MmWf t'.mm) fun halt => halt = .noMem :=
        dup_mmap_ends (h parent) _ hen.2
      cases r with
      | ok _ => exact mmWf_update h (hends.of_ok hdup)
      | error _ => exact mmWf_update h (hends.of_error hdup)
  | userMemCheck k addr len write =>
      obtain ⟨⟨b, mm⟩, hcheck, hret⟩ := Halt.bind_eq_ok.mp hexec
      obtain rfl := Except.ok.inj hret
      obtain ⟨b', mm', hcheck', -, hwf', -⟩ := userMemCheck_spec (h k) addr len write
      rw [hcheck'] at hcheck
      obtain ⟨-, rfl⟩ := Prod.mk.inj (Except.ok.inj hcheck)
      exact mmWf_update h hwf'
  | elsewhere vm heap =>
      obtain rfl := Except.ok.inj hexec
      exact h

/-- The lists of areas are in order in every state of a run. -/
theorem mmWf_of_run {cond : MmSys κ → MmOp κ → Prop} (hrun : MmRun al cond sys) :
    ∀ k, MmWf (sys.mms k) := by
  induction hrun with
  | init vm heap => exact fun _ => mmWf_noAreas
  | step op _ hen _ hexec ih => exact MmOp.exec_wf ih hen hexec

/-- In every run whose requests meet the condition, the lists are in order and their areas are not
empty. The next `mm_map` does what it promises, whatever the allocator does, if and only if it meets
the condition, too. The next `dup_mmap` stops only when there is no memory for the pages. -/
theorem mmMap_lists_ok (hrun : MmRun al MmStepOk sys) :
    (∀ k, ((sys.mms k).mmapList.Pairwise fun a b => a.vmEnd ≤ b.vmStart) ∧
      ∀ w ∈ (sys.mms k).mmapList, w.vmStart < w.vmEnd) ∧
    (∀ k addr len vmFlags, addr < 2 ^ 64 → len < 2 ^ 64 →
      ((∀ h heap, MapsPages h heap (sys.mms k) addr len vmFlags) ↔
        RequestOk (sys.mms k) addr len)) ∧
    ∀ child parent halt, (MmOp.dupMmap child parent).Enabled sys →
      (MmOp.dupMmap child parent).exec al sys = .error halt → halt = .noMem := by
  have hwf := mmWf_of_run hrun
  refine ⟨fun k => ⟨(hwf k).sorted, fun w hw => ((hwf k).area w hw).2.2.2.1⟩, ?_, ?_⟩
  · intro k addr len vmFlags _ _
    exact ⟨requestOk_of_mapsPages (hwf k), fun hreq h heap => hreq.mapsPages (hwf k) h heap vmFlags⟩
  · intro child parent halt hen hexec
    have hends : (dup_mmap al child parent (sys.mms parent)).Ends
        ⟨sys.vm, sys.heap, sys.mms child, [], 0⟩ (fun _ t' => MmWf t'.mm)
        (fun _ t' => MmWf t'.mm) fun halt => halt = .noMem :=
      dup_mmap_ends (hwf parent) _ hen.2
    simp only [MmOp.exec] at hexec
    cases hdup : dup_mmap al child parent (sys.mms parent)
        ⟨sys.vm, sys.heap, sys.mms child, [], 0⟩ with
    | error halt' =>
        rw [hdup] at hexec
        obtain rfl : halt' = halt := Except.error.inj hexec
        exact hends.of_panic hdup
    | ok r =>
        rw [hdup] at hexec
        cases hexec

/-- The allocators of the runs below. -/
def pagesAndHeap : Allocators := ⟨inOrder, heapInOrder⟩

/-- An area of one page in the first of two address spaces. -/
def onePageSys : MmSys Bool :=
  ⟨emptySpaces Bool, ⟨Function.update (fun _ => false) 0 true, 1, [.alloc 0]⟩,
    Function.update (fun _ => noAreas) false ⟨[⟨0x300000, 0x301000, 0⟩], none, 1⟩⟩

/-- One area of one page is mapped. -/
theorem mmMap_onePage :
    (MmOp.mmMap false 0x300000 0x1000 0).exec pagesAndHeap
      ⟨emptySpaces Bool, ⟨fun _ => false, 0, []⟩, fun _ => noAreas⟩ = .ok onePageSys := rfl

/-- A request of the first page, and the next one. -/
theorem mmMap_lists_ok_onePage : MmRun pagesAndHeap MmStepOk onePageSys ∧
    ¬ RequestOk (onePageSys.mms false) 0x200000 0x200000 ∧
    ∀ h heap, MapsPages h heap (onePageSys.mms false) 0x400000 0x1000 0 := by
  have hfirst : RequestOk noAreas 0x300000 0x1000 :=
    fun _ => Or.inr ⟨by decide, fun w hw => by cases hw⟩
  have hrun : MmRun pagesAndHeap MmStepOk onePageSys :=
    .step (.mmMap false 0x300000 0x1000 0) (.init _ _) ⟨by decide, by decide⟩ hfirst mmMap_onePage
  have hnext : RequestOk (onePageSys.mms false) 0x400000 0x1000 := by
    refine fun _ => Or.inr ⟨by decide, fun w hw => ?_⟩
    rw [List.mem_singleton.mp hw]
    exact Or.inl (by decide)
  refine ⟨hrun, fun hreq => ?_, ((mmMap_lists_ok hrun).2.1 false 0x400000 0x1000 0 (by decide)
    (by decide)).mpr hnext⟩
  rcases hreq (by decide) with ⟨w, hw, hcont⟩ | ⟨-, hapart⟩
  · rw [List.mem_singleton.mp hw] at hcont
    exact absurd hcont (by decide)
  · exact absurd (hapart _ (List.mem_singleton_self _)) (by unfold Apart; decide)

/-- A request that starts below the page and ends behind it stops the machine. A request that wraps
around gets one page. -/
theorem mmMap_meets_area : MmRun pagesAndHeap (fun _ _ => True) onePageSys ∧
    (MmOp.mmMap false 0x200000 0x200000 0).exec pagesAndHeap onePageSys = .error .assert ∧
    ((MmOp.mmMap true 0x200123 (2 ^ 64 - 1) 0).exec pagesAndHeap onePageSys).map
      (fun sys => (sys.mms true).mmapList) = .ok [⟨0x200000, 0x201000, 0⟩] :=
  ⟨.step (.mmMap false 0x300000 0x1000 0) (.init _ _) ⟨by decide, by decide⟩ trivial mmMap_onePage,
    rfl, by decide⟩

end Ucore.Proofs.Process
