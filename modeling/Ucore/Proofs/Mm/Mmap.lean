import Ucore.Mm.Mmap
import Ucore.Proofs.Mm.UserMem

/-!
# `Ucore.Proofs.Mm.Mmap`: the list of areas

`mm_map` keeps the list of areas in order (`mmMap_spec`). Whether it also sees every area in its way
depends on the request (`RequestOk.mapsPages` and `requestOk_of_mapsPages`).

`mm_map` looks for an area at the first address of the range only, with `find_vma`. An area that
lies further up in the range is met by `insert_vma_struct`, and there by an assertion. And the sum
of `addr` and `len` is one of `uintptr_t`: when it wraps, the new area is not the one asked for.

`RequestOk` is the condition under which neither happens. When the bounds as computed pass
`USER_ACCESS`, the range starts in an area, which is an error code, or it does not wrap and meets no
area at all. `requestOk_of_mapsPages` is the other direction, for an allocator that has memory.
-/

set_option autoImplicit false

namespace Ucore.Proofs.Mm

open Ucore.Lib Ucore.Mm

variable {mm mm' : MmStruct} {vma : Vma}

/-- The boundaries of a range that `USER_ACCESS` accepts. -/
theorem userAccess_iff {start stop : Nat} :
    userAccess start stop = true ↔ userBase ≤ start ∧ start < stop ∧ stop ≤ userTop := by
  simp [userAccess, and_assoc]

/-- The area consists of whole pages of user memory. -/
def AreaOk (vma : Vma) : Prop :=
  vma.vmStart % pgSize = 0 ∧ vma.vmEnd % pgSize = 0 ∧ userBase ≤ vma.vmStart ∧
    vma.vmStart < vma.vmEnd ∧ vma.vmEnd ≤ userTop

/-- The two areas have no address in common. -/
def Apart (v w : Vma) : Prop := v.vmEnd ≤ w.vmStart ∨ w.vmEnd ≤ v.vmStart

/-- What stands in front of the new area lies below it. -/
theorem below_of_getLast {before : List Vma} {start : Nat}
    (hsorted : before.Pairwise fun a b => a.vmEnd ≤ b.vmStart)
    (hpos : ∀ w ∈ before, w.vmStart < w.vmEnd)
    (hlast : ∀ w, before.getLast? = some w → w.vmEnd ≤ start) :
    ∀ w ∈ before, w.vmEnd ≤ start := by
  intro w hw
  rcases List.eq_nil_or_concat before with rfl | ⟨init, last, rfl⟩
  · cases hw
  · have hend := hlast last (by simp)
    rw [List.concat_eq_append] at hw hsorted
    rcases List.mem_append.mp hw with hw' | hw'
    · have hle := (List.pairwise_append.mp hsorted).2.2 w hw' last (by simp)
      have hlt := hpos last (by simp)
      omega
    · rw [List.mem_singleton.mp hw']
      exact hend

/-- What stands behind the new area lies above it. -/
theorem above_of_head {after : List Vma} {stop : Nat}
    (hsorted : after.Pairwise fun a b => a.vmEnd ≤ b.vmStart)
    (hpos : ∀ w ∈ after, w.vmStart < w.vmEnd)
    (hhead : ∀ w, after.head? = some w → stop ≤ w.vmStart) :
    ∀ w ∈ after, stop ≤ w.vmStart := by
  intro w hw
  cases after with
  | nil => cases hw
  | cons first rest =>
      have hfirst := hhead first rfl
      rcases List.mem_cons.mp hw with rfl | hw'
      · exact hfirst
      · have hle := (List.pairwise_cons.mp hsorted).1 w hw'
        have hlt := hpos first List.mem_cons_self
        omega

/-- `insert_vma_struct` of an area, when its assertions hold. -/
theorem insertVmaStruct_spec (h : MmWf mm) (harea : AreaOk vma)
    (hok : insertVmaStruct mm vma = .ok mm') :
    MmWf mm' ∧ (∀ w, w ∈ mm'.mmapList ↔ w = vma ∨ w ∈ mm.mmapList) ∧
      ∀ w ∈ mm.mmapList, Apart w vma := by
  unfold insertVmaStruct at hok
  dsimp only at hok
  split at hok
  · rename_i hchecks
    obtain rfl := Except.ok.inj hok
    simp only [Bool.and_eq_true, decide_eq_true_eq] at hchecks
    obtain ⟨⟨-, hprev⟩, hnext⟩ := hchecks
    -- The new area goes between those that start below or at it and those that start above it.
    have hsplit := List.takeWhile_append_dropWhile
      (p := fun v : Vma => decide (v.vmStart ≤ vma.vmStart)) (l := mm.mmapList)
    generalize mm.mmapList.takeWhile (fun v => decide (v.vmStart ≤ vma.vmStart)) = before at *
    generalize mm.mmapList.dropWhile (fun v => decide (v.vmStart ≤ vma.vmStart)) = after at *
    have hsorted := h.sorted
    have hpos : ∀ w ∈ mm.mmapList, w.vmStart < w.vmEnd := fun w hw => (h.area w hw).2.2.2.1
    rw [← hsplit] at hsorted hpos
    obtain ⟨hsb, hsa, hcross⟩ := List.pairwise_append.mp hsorted
    -- `check_vma_overlap` compares with the two neighbours only. The list is sorted, so they stand
    -- for all.
    have hbelow : ∀ w ∈ before, w.vmEnd ≤ vma.vmStart := by
      refine below_of_getLast hsb (fun w hw => hpos w (List.mem_append_left _ hw)) ?_
      intro w hw
      rw [hw] at hprev
      simp only [Option.all_some, checkVmaOverlap, Bool.and_eq_true, decide_eq_true_eq] at hprev
      exact hprev.1.2
    have habove : ∀ w ∈ after, vma.vmEnd ≤ w.vmStart := by
      refine above_of_head hsa (fun w hw => hpos w (List.mem_append_right _ hw)) ?_
      intro w hw
      rw [hw] at hnext
      simp only [Option.all_some, checkVmaOverlap, Bool.and_eq_true, decide_eq_true_eq] at hnext
      exact hnext.1.2
    have hmem : ∀ w, w ∈ before ++ vma :: after ↔ w = vma ∨ w ∈ mm.mmapList := by
      intro w
      rw [← hsplit, List.mem_append, List.mem_cons, List.mem_append]
      exact or_left_comm
    refine ⟨⟨?_, ?_, ?_⟩, hmem, ?_⟩
    · refine List.pairwise_append.mpr ⟨hsb, List.pairwise_cons.mpr ⟨habove, hsa⟩, ?_⟩
      intro a ha b hb
      rcases List.mem_cons.mp hb with rfl | hb'
      · exact hbelow a ha
      · exact hcross a ha b hb'
    · intro w hw
      rcases (hmem w).mp hw with rfl | hw'
      · exact harea
      · exact h.area w hw'
    · exact fun w hw => (hmem w).mpr (Or.inr (h.cache w hw))
    · intro w hw
      rw [← hsplit] at hw
      rcases List.mem_append.mp hw with hw' | hw'
      · exact Or.inl (hbelow w hw')
      · exact Or.inr (habove w hw')
  · cases hok

/-- `ROUNDDOWN` gives the start of the page that the address is in. -/
theorem roundDown_pgSize (a : Nat) : roundDown a pgSize % pgSize = 0 ∧ roundDown a pgSize ≤ a ∧
    a < roundDown a pgSize + pgSize := by
  unfold roundDown pgSize
  omega

/-- What `mm_map` returns: there is one more area, or there is an error and the list is as it
was. -/
theorem mmMap_spec {h : HeapOracle} {heap heap' : Heap} {addr len vmFlags : Nat}
    {r : Except Int Nat} (hwf : MmWf mm)
    (hok : mmMap h heap mm addr len vmFlags = .ok (r, heap', mm')) :
    MmWf mm' ∧
      ((∃ p, r = .ok p ∧
          AreaOk ⟨roundDown addr pgSize, pageRoundUp (uintptr (addr + len)), vmFlags⟩ ∧
          (∀ w, w ∈ mm'.mmapList ↔
            w = ⟨roundDown addr pgSize, pageRoundUp (uintptr (addr + len)), vmFlags⟩ ∨
              w ∈ mm.mmapList) ∧
          ∀ w ∈ mm.mmapList,
            Apart w ⟨roundDown addr pgSize, pageRoundUp (uintptr (addr + len)), vmFlags⟩) ∨
        ∃ ret, r = .error ret ∧ mm'.mmapList = mm.mmapList) := by
  obtain ⟨hwf', hlist, -, -⟩ := findVma_spec hwf (roundDown addr pgSize)
  unfold mmMap at hok
  dsimp only at hok
  split at hok
  · obtain ⟨rfl, -, rfl⟩ : _ ∧ _ ∧ _ := by simpa using hok
    exact ⟨hwf, Or.inr ⟨_, rfl, rfl⟩⟩
  · rename_i hacc
    have hacc' := userAccess_iff.mp (Bool.of_not_eq_false hacc)
    split at hok
    · obtain ⟨rfl, -, rfl⟩ : _ ∧ _ ∧ _ := by simpa using hok
      exact ⟨hwf', Or.inr ⟨_, rfl, hlist⟩⟩
    · split at hok
      · obtain ⟨rfl, -, rfl⟩ : _ ∧ _ ∧ _ := by simpa using hok
        exact ⟨hwf', Or.inr ⟨_, rfl, hlist⟩⟩
      · rename_i p heap₁ _
        obtain ⟨mm₂, hins, hok⟩ := Halt.bind_eq_ok.mp hok
        have hok' := Except.ok.inj hok
        simp only [Prod.mk.injEq] at hok'
        obtain ⟨rfl, -, rfl⟩ := hok'
        have harea : AreaOk ⟨roundDown addr pgSize, pageRoundUp (uintptr (addr + len)), vmFlags⟩ :=
          ⟨(roundDown_pgSize addr).1, (roundDown_pgSize _).1, hacc'.1, hacc'.2.1, hacc'.2.2⟩
        obtain ⟨hwf₂, hmem, hapart⟩ := insertVmaStruct_spec hwf' harea hins
        rw [hlist] at hmem hapart
        exact ⟨hwf₂, Or.inl ⟨p, rfl, harea, hmem, hapart⟩⟩

/-- `insert_vma_struct` of an area that has no address in common with one of the list: no assertion
fails. -/
theorem insertVmaStruct_apart (h : MmWf mm) (harea : AreaOk vma)
    (hapart : ∀ w ∈ mm.mmapList, Apart w vma) :
    ∃ before after, mm.mmapList = before ++ after ∧ insertVmaStruct mm vma =
      .ok { mm with mmapList := before ++ vma :: after, mapCount := mm.mapCount + 1 } := by
  have hlt := harea.2.2.2.1
  have hpos : ∀ w ∈ mm.mmapList, w.vmStart < w.vmEnd := fun w hw => (h.area w hw).2.2.2.1
  have hprev : (mm.mmapList.takeWhile fun v => decide (v.vmStart ≤ vma.vmStart)).getLast?.all
      (fun prev => checkVmaOverlap prev vma) = true := by
    cases hlast : (mm.mmapList.takeWhile fun v => decide (v.vmStart ≤ vma.vmStart)).getLast? with
    | none => rfl
    | some w =>
        have hmem := List.mem_of_getLast? hlast
        have hle : w.vmStart ≤ vma.vmStart := by
          simpa using List.mem_takeWhile_imp hmem
        have hw := (List.takeWhile_sublist _).subset hmem
        have hwlt := hpos w hw
        rcases hapart w hw with hend | hend
        · simp [checkVmaOverlap, hwlt, hend, hlt]
        · omega
  have hnext : (mm.mmapList.dropWhile fun v => decide (v.vmStart ≤ vma.vmStart)).head?.all
      (fun next => checkVmaOverlap vma next) = true := by
    cases hhead : (mm.mmapList.dropWhile fun v => decide (v.vmStart ≤ vma.vmStart)).head? with
    | none => rfl
    | some w =>
        have hgt : vma.vmStart < w.vmStart := by
          have hnot := List.head?_dropWhile_not
            (fun v : Vma => decide (v.vmStart ≤ vma.vmStart)) mm.mmapList
          rw [hhead] at hnot
          simpa using hnot
        have hw := (List.dropWhile_sublist _).subset (List.mem_of_head? hhead)
        have hwlt := hpos w hw
        rcases hapart w hw with hend | hend
        · omega
        · simp [checkVmaOverlap, hwlt, hend, hlt]
  refine ⟨_, _, (List.takeWhile_append_dropWhile
    (p := fun v : Vma => decide (v.vmStart ≤ vma.vmStart))).symm, ?_⟩
  unfold insertVmaStruct
  dsimp only
  rw [hprev, hnext]
  simp [hlt]

/-! ### What `mm_map` promises -/

/-- The area of the whole pages around the `len` addresses from `addr` on. -/
def pageRange (addr len vmFlags : Nat) : Vma :=
  ⟨roundDown addr pgSize, roundDown (addr + len + pgSize - 1) pgSize, vmFlags⟩

/-- `mm_map` returns. There is one more area, which consists of the whole pages, or there is an
error and nothing has changed. When the pages meet an area, the error is `-E_INVAL`. -/
def MapsPages (h : HeapOracle) (heap : Heap) (mm : MmStruct) (addr len vmFlags : Nat) : Prop :=
  ∃ r heap' mm', mmMap h heap mm addr len vmFlags = .ok (r, heap', mm') ∧
    ((∃ p before after, r = .ok p ∧ mm.mmapList = before ++ after ∧
        mm'.mmapList = before ++ pageRange addr len vmFlags :: after ∧
        mm'.mapCount = mm.mapCount + 1) ∨
      ∃ ret, r = .error ret ∧ mm'.mmapList = mm.mmapList ∧ mm'.mapCount = mm.mapCount) ∧
    ((∃ w ∈ mm.mmapList, ¬ Apart w (pageRange addr len vmFlags)) → r = .error (-eInval))

/-- The condition on a request: when its bounds, as `mm_map` computes them, pass `USER_ACCESS`, it
starts in an area, or it does not wrap around and meets no area. -/
def RequestOk (mm : MmStruct) (addr len : Nat) : Prop :=
  userAccess (roundDown addr pgSize) (pageRoundUp (uintptr (addr + len))) = true →
    (∃ w ∈ mm.mmapList, w.Contains (roundDown addr pgSize)) ∨
      addr + len < 2 ^ 64 ∧ ∀ w ∈ mm.mmapList, Apart w (pageRange addr len 0)

/-- The bound that `mm_map` computes, when nothing wraps around. -/
theorem pageRoundUp_eq {start n : Nat} (hn : n < 2 ^ 64)
    (hacc : userAccess start (pageRoundUp (uintptr n)) = true) :
    pageRoundUp (uintptr n) = roundDown (n + pgSize - 1) pgSize := by
  have hlt := (userAccess_iff.mp hacc).2.1
  unfold pageRoundUp uintptr roundDown pgSize at *
  omega

/-- When the sum wraps around, the bound is below the last one that there is. -/
theorem pageRoundUp_lt {addr len : Nat} (hwrap : 2 ^ 64 ≤ addr + len) (vmFlags : Nat) :
    userTop < (pageRange addr len vmFlags).vmEnd := by
  show userTop < roundDown (addr + len + pgSize - 1) pgSize
  unfold userTop roundDown pgSize
  omega

/-- `find_vma` finds nothing at an address in no area. -/
theorem findVma_none (hwf : MmWf mm) {addr : Nat}
    (hnot : ¬ ∃ w ∈ mm.mmapList, w.Contains addr) : (findVma mm addr).1 = none := by
  obtain ⟨-, -, hfound, -⟩ := findVma_spec hwf addr
  cases hres : (findVma mm addr).1 with
  | none => rfl
  | some w => exact absurd ⟨w, hfound w hres⟩ hnot

/-- `mm_map` of a range that starts in an area. -/
theorem mmMap_taken {h : HeapOracle} {heap : Heap} {addr len vmFlags : Nat} (hwf : MmWf mm)
    (hin : ∃ w ∈ mm.mmapList, w.Contains (roundDown addr pgSize))
    (hacc : userAccess (roundDown addr pgSize) (pageRoundUp (uintptr (addr + len))) = true) :
    mmMap h heap mm addr len vmFlags =
      .ok (.error (-eInval), heap, (findVma mm (roundDown addr pgSize)).2) := by
  obtain ⟨-, -, hfound, hsome⟩ := findVma_spec hwf (roundDown addr pgSize)
  obtain ⟨w, hw⟩ := Option.isSome_iff_exists.mp (hsome hin)
  have hcont := (hfound w hw).2
  have hlt := (userAccess_iff.mp hacc).2.1
  have hbelow : (findVma mm (roundDown addr pgSize)).1.any
      (fun vma => decide (vma.vmStart < pageRoundUp (uintptr (addr + len)))) = true := by
    rw [hw]
    simpa using Nat.lt_of_le_of_lt hcont.1 hlt
  unfold mmMap
  dsimp only
  rw [if_neg (by rw [hacc]; exact Bool.noConfusion), if_pos hbelow]

/-- `mm_map` of a range that starts in no area: only the allocator and the assertions can keep it
from the list. -/
theorem mmMap_gap {addr len : Nat} (hwf : MmWf mm)
    (hout : ¬ ∃ w ∈ mm.mmapList, w.Contains (roundDown addr pgSize))
    (hacc : userAccess (roundDown addr pgSize) (pageRoundUp (uintptr (addr + len))) = true)
    (h : HeapOracle) (heap : Heap) (vmFlags : Nat) :
    mmMap h heap mm addr len vmFlags =
      match heap.kmalloc h with
      | (none, heap) => .ok (.error (-eNoMem), heap, (findVma mm (roundDown addr pgSize)).2)
      | (some p, heap) =>
          (insertVmaStruct (findVma mm (roundDown addr pgSize)).2
            ⟨roundDown addr pgSize, pageRoundUp (uintptr (addr + len)), vmFlags⟩).map
              fun mm => (.ok p, heap, mm) := by
  have hnone := findVma_none hwf hout
  unfold mmMap
  dsimp only
  rw [if_neg (by rw [hacc]; exact Bool.noConfusion), hnone, if_neg (by simp)]
  cases heap.kmalloc h with
  | mk p heap₁ =>
      cases p with
      | none => rfl
      | some p =>
          dsimp only
          cases insertVmaStruct (findVma mm (roundDown addr pgSize)).2
            ⟨roundDown addr pgSize, pageRoundUp (uintptr (addr + len)), vmFlags⟩ <;> rfl

/-- The condition is enough. -/
theorem RequestOk.mapsPages {addr len : Nat} (hwf : MmWf mm) (hreq : RequestOk mm addr len)
    (h : HeapOracle) (heap : Heap) (vmFlags : Nat) : MapsPages h heap mm addr len vmFlags := by
  by_cases hacc :
      userAccess (roundDown addr pgSize) (pageRoundUp (uintptr (addr + len))) = true
  · by_cases hin : ∃ w ∈ mm.mmapList, w.Contains (roundDown addr pgSize)
    · exact ⟨_, _, _, mmMap_taken hwf hin hacc, Or.inr ⟨_, rfl, rfl, rfl⟩, fun _ => rfl⟩
    · -- nothing wraps around, and no area meets the pages
      obtain ⟨hsum, hapart⟩ := (hreq hacc).resolve_left hin
      have hstop := pageRoundUp_eq hsum hacc
      have hnot : ¬ ∃ w ∈ mm.mmapList, ¬ Apart w (pageRange addr len vmFlags) :=
        fun ⟨w, hw, hmeet⟩ => hmeet (hapart w hw)
      have hmap := mmMap_gap hwf hin hacc h heap vmFlags
      have hacc' := userAccess_iff.mp hacc
      rw [hstop] at hmap hacc'
      have harea : AreaOk (pageRange addr len vmFlags) :=
        ⟨(roundDown_pgSize addr).1, (roundDown_pgSize _).1, hacc'⟩
      obtain ⟨before, after, hsplit, hins⟩ := insertVmaStruct_apart
        (findVma_spec hwf (roundDown addr pgSize)).1 harea hapart
      cases hk : heap.kmalloc h with
      | mk p heap' =>
          rw [hk] at hmap
          cases p with
          | none => exact ⟨_, _, _, hmap, Or.inr ⟨_, rfl, rfl, rfl⟩, fun hmeet => absurd hmeet hnot⟩
          | some p =>
              have hins' : insertVmaStruct (findVma mm (roundDown addr pgSize)).2
                  ⟨roundDown addr pgSize, roundDown (addr + len + pgSize - 1) pgSize, vmFlags⟩ =
                  _ := hins
              rw [hins'] at hmap
              exact ⟨_, _, _, hmap, Or.inl ⟨p, before, after, rfl, hsplit, rfl, rfl⟩,
                fun hmeet => absurd hmeet hnot⟩
  · have hmap : mmMap h heap mm addr len vmFlags = .ok (.error (-eInval), heap, mm) := by
      unfold mmMap
      dsimp only
      rw [if_pos (Bool.eq_false_iff.mpr hacc)]
    exact ⟨_, _, _, hmap, Or.inr ⟨_, rfl, rfl, rfl⟩, fun _ => rfl⟩

/-- An allocator that answers the requests with the addresses in order. -/
def heapInOrder : HeapOracle where
  pick n live := if live n then none else some n
  pick_fresh := by
    intro n live p hp
    split at hp
    · cases hp
    · rename_i hfree
      cases hp
      exact Bool.eq_false_iff.mpr hfree

/-- The condition is needed: otherwise an assertion fails, or the new area is not the one that was
asked for, as soon as the allocator has memory. -/
theorem requestOk_of_mapsPages {addr len vmFlags : Nat} (hwf : MmWf mm)
    (hmaps : ∀ h heap, MapsPages h heap mm addr len vmFlags) : RequestOk mm addr len := by
  intro hacc
  by_cases hin : ∃ w ∈ mm.mmapList, w.Contains (roundDown addr pgSize)
  · exact Or.inl hin
  · right
    obtain ⟨r, heap', mm', hok, hres, -⟩ := hmaps heapInOrder ⟨fun _ => false, 0, []⟩
    obtain ⟨-, hspec⟩ := mmMap_spec hwf hok
    rw [mmMap_gap hwf hin hacc] at hok
    have hk : Heap.kmalloc ⟨fun _ => false, 0, []⟩ heapInOrder =
        (some 0, ⟨Function.update (fun _ => false) 0 true, 1, [.alloc 0]⟩) := rfl
    rw [hk] at hok
    obtain ⟨p, rfl⟩ : ∃ p, r = .ok p := by
      cases hins : insertVmaStruct (findVma mm (roundDown addr pgSize)).2
          ⟨roundDown addr pgSize, pageRoundUp (uintptr (addr + len)), vmFlags⟩ with
      | error halt =>
          rw [hins] at hok
          cases hok
      | ok mm₂ =>
          rw [hins] at hok
          have hok' := Except.ok.inj hok
          exact ⟨0, (Prod.mk.inj hok').1.symm⟩
    obtain ⟨-, -, harea, hmem, hapart⟩ := hspec.resolve_right (by rintro ⟨_, hno, -⟩; cases hno)
    obtain ⟨-, before, after, -, -, hnew, -⟩ :=
      hres.resolve_right (by rintro ⟨_, hno, -⟩; cases hno)
    have hpages : pageRange addr len vmFlags ∈ mm'.mmapList := by
      rw [hnew]
      simp
    have htop : (pageRange addr len vmFlags).vmEnd ≤ userTop := by
      rcases (hmem _).mp hpages with heq | hold
      · rw [heq]
        exact harea.2.2.2.2
      · exact (hwf.area _ hold).2.2.2.2
    have hsum : addr + len < 2 ^ 64 := by
      by_contra hwrap
      have hlt := pageRoundUp_lt (Nat.le_of_not_lt hwrap) vmFlags
      omega
    refine ⟨hsum, fun w hw => ?_⟩
    have hw' := hapart w hw
    rw [pageRoundUp_eq hsum hacc] at hw'
    exact hw'

end Ucore.Proofs.Mm
