import Ucore.Mm.PrivateMem
import Ucore.Proofs.Mm.Cow

/-!
# `Ucore.Proofs.Mm.UserMem`: copy-on-write refines private memory

`pageOf` reads the private page of a slot off the page tables: a page is writable for its process
when the entry has `PTE_W` or `PTE_COW`. Under the invariant `Good` the sharing system and the
copying system both do, operation by operation, what the abstract machine `PrivateSys` does
(`exec_refines`), as long as no fork copies an entry that has `PTE_COW`.

## The invariant

The heart of `Good` is `Private`: an entry with `PTE_W` is the only one that maps its page. Sharing
clears `PTE_W` on both sides, and the fault handler sets it again only on a page of its own. Beside
it stand the exact counts (`RefInv`), from which the handler learns whether its process is alone,
and that a page which is copy-on-write lies in an area, so that the handler finds one.

## What is copied

`Copied` says that an address space has got the pages `R` of another one. It composes over disjoint
sets of pages (`trans`), which is the step of the three loops around each other: the pages of a
range (`copyRangeLoop_copied`), the ranges of the areas (`dupMmapLoop_copied`), and one page at the
bottom, shared (`copyShared_copied`) or copied (`copyDup_copied`). What the flags of the two entries
allow is settled bit by bit in `shared_flags`, `copied_flags` and `resolved_flags`.

`storePageFault_spec` lists how a store fault ends, and `Good.resolved` keeps the invariant.
-/

set_option autoImplicit false
set_option linter.unusedSectionVars false

namespace Ucore.Proofs.Mm

open Ucore.Lib
open Ucore.Mm
open Ucore.Mm.Vm

variable {κ : Type} [DecidableEq κ]

/-! ### Permissions -/

/-- What the flags of a valid entry let its process do: read, write, execute, at all. -/
def perms (f : PteFlags) : Bool × Bool × Bool × Bool :=
  (PteFlags.has f pteR, PteFlags.has f pteW || PteFlags.has f pteCow, PteFlags.has f pteX,
    PteFlags.has f pteU)

/-- The private page of a valid entry. -/
def pageOf (s : Vm κ) (x : Slot κ) : Option PrivatePage :=
  if (s.leaf x).valid then
    let f := (s.leaf x).flags
    some ⟨PteFlags.has f pteR, PteFlags.has f pteW || PteFlags.has f pteCow, PteFlags.has f pteX,
      PteFlags.has f pteU, s.data (s.leaf x).ppn⟩
  else none

/-- Sharing keeps the permissions on both sides, and no side can write at once. -/
theorem shared_flags (f : PteFlags) (hc : PteFlags.has f pteCow = false)
    (hw : PteFlags.has (f &&& pteUser) pteW = true) :
    perms ((f &&& ~~~pteW) ||| pteCow) = perms f ∧
      perms (pteV ||| (((f &&& pteUser) ||| pteCow) &&& ~~~pteW)) = perms f ∧
      PteFlags.has ((f &&& ~~~pteW) ||| pteCow) pteW = false ∧
      PteFlags.has (pteV ||| (((f &&& pteUser) ||| pteCow) &&& ~~~pteW)) pteW = false := by
  revert f
  decide +kernel

/-- A copied entry has the permissions of an entry without `PTE_COW`. -/
theorem copied_flags (f : PteFlags) (hc : PteFlags.has f pteCow = false) :
    perms (pteV ||| (f &&& pteUser)) = perms f ∧
      PteFlags.has (pteV ||| (f &&& pteUser)) pteCow = false ∧
      PteFlags.has (pteV ||| (f &&& pteUser)) pteW = PteFlags.has (f &&& pteUser) pteW ∧
      PteFlags.has (f &&& pteUser) pteW = PteFlags.has f pteW := by
  revert f
  decide +kernel

/-- The two paths of the fault handler leave the permissions alone, let the process write
and clear `PTE_COW`. -/
theorem resolved_flags (f : PteFlags) (hc : f &&& (pteV ||| pteCow) = pteV ||| pteCow) :
    perms ((f ||| pteW) &&& ~~~pteCow) = perms f ∧
      perms (pteV ||| (((f &&& pteUser) ||| pteW) &&& ~~~pteCow)) = perms f ∧
      PteFlags.has ((f ||| pteW) &&& ~~~pteCow) pteW = true ∧
      PteFlags.has ((f ||| pteW) &&& ~~~pteCow) pteCow = false ∧
      PteFlags.has (pteV ||| (((f &&& pteUser) ||| pteW) &&& ~~~pteCow)) pteW = true ∧
      PteFlags.has (pteV ||| (((f &&& pteUser) ||| pteW) &&& ~~~pteCow)) pteCow = false := by
  revert f
  decide +kernel

/-- The test of the fault handler is that an entry is valid and copy-on-write. -/
theorem cow_test_iff (f : PteFlags) : f &&& (pteV ||| pteCow) = pteV ||| pteCow ↔
    PteFlags.has f pteV = true ∧ PteFlags.has f pteCow = true := by
  revert f
  decide +kernel

/-- The private page of an entry, from its permissions and its bytes. -/
theorem pageOf_eq {s s' : Vm κ} {x y : Slot κ} (hv : (s'.leaf x).valid = (s.leaf y).valid)
    (hp : (s.leaf y).valid = true → perms (s'.leaf x).flags = perms (s.leaf y).flags)
    (hd : (s.leaf y).valid = true → s'.data (s'.leaf x).ppn = s.data (s.leaf y).ppn) :
    pageOf s' x = pageOf s y := by
  unfold pageOf
  rw [hv]
  by_cases hy : (s.leaf y).valid = true
  · have hperm := hp hy
    simp only [perms, Prod.mk.injEq] at hperm
    obtain ⟨h1, h2, h3, h4⟩ := hperm
    rw [if_pos hy, if_pos hy, hd hy]
    simp only [h1, h2, h3, h4]
  · rw [if_neg hy, if_neg hy]

section Refinement

variable [Fintype κ]

/-! ### Sharing and copying -/

/-- An entry that lets its process write is the only one that maps its page. -/
def Private (s : Vm κ) : Prop :=
  ∀ x y p, x ≠ y → tgt s x = some p → tgt s y = some p → PteFlags.has (s.leaf x).flags pteW = false

/-- The address space `c` got the pages `R` of the address space `k`. -/
structure Copied (s s' : Vm κ) (k c : κ) (R : Vpn → Prop) : Prop where
  ref : RefInv s'
  priv : Private s'
  frame : ∀ x : Slot κ, ¬ ((x.1 = k ∨ x.1 = c) ∧ R x.2) → s'.leaf x = s.leaf x
  data : ∀ p, 0 < mapCount s p → s'.data p = s.data p
  mapped : ∀ p, 0 < mapCount s p → 0 < mapCount s' p
  parent : ∀ v, R v → pageOf s' (k, v) = pageOf s (k, v)
  child : ∀ v, R v → pageOf s' (c, v) = pageOf s (k, v)

/-- The page of a valid entry is mapped. -/
theorem mapCount_pos_of_valid {s : Vm κ} {x : Slot κ} (h : (s.leaf x).valid = true) :
    0 < mapCount s (s.leaf x).ppn := mapCount_pos_iff.mpr ⟨x, tgt_eq_some.mpr ⟨h, rfl⟩⟩

namespace Copied

variable {s t u : Vm κ} {k c : κ} {R S : Vpn → Prop}

/-- An entry that was not touched has its page. -/
theorem pageOf_frame (h : Copied s t k c R) {x : Slot κ} (hx : ¬ ((x.1 = k ∨ x.1 = c) ∧ R x.2)) :
    pageOf t x = pageOf s x := by
  have hleaf := h.frame x hx
  apply pageOf_eq
  · rw [hleaf]
  · intro _
    rw [hleaf]
  · intro hv
    rw [hleaf]
    exact h.data _ (mapCount_pos_of_valid hv)

/-- Nothing to copy. -/
theorem refl (hi : RefInv s) (hp : Private s) (hR : ∀ v, R v → pageOf s (c, v) = pageOf s (k, v)) :
    Copied s s k c R :=
  ⟨hi, hp, fun _ _ => rfl, fun _ _ => rfl, fun _ h => h, fun _ _ => rfl, hR⟩

/-- One set of pages after another. -/
theorem trans (h : Copied s t k c R) (h' : Copied t u k c S) (hdis : ∀ v, R v → ¬ S v) :
    Copied s u k c (fun v => R v ∨ S v) where
  ref := h'.ref
  priv := h'.priv
  frame := fun x hx => (h'.frame x (fun hs => hx ⟨hs.1, Or.inr hs.2⟩)).trans
    (h.frame x (fun hr => hx ⟨hr.1, Or.inl hr.2⟩))
  data := fun p hp => (h'.data p (h.mapped p hp)).trans (h.data p hp)
  mapped := fun p hp => h'.mapped p (h.mapped p hp)
  parent := by
    rintro v (hr | hs)
    · exact (h'.pageOf_frame (x := (k, v)) (fun hx => hdis v hr hx.2)).trans (h.parent v hr)
    · exact (h'.parent v hs).trans (h.pageOf_frame (x := (k, v)) (fun hx => hdis v hx.2 hs))
  child := by
    rintro v (hr | hs)
    · exact (h'.pageOf_frame (x := (c, v)) (fun hx => hdis v hr hx.2)).trans (h.child v hr)
    · exact (h'.child v hs).trans (h.pageOf_frame (x := (k, v)) (fun hx => hdis v hx.2 hs))

/-- The pages that have been copied, in other words. -/
theorem congr (h : Copied s t k c R) (hRS : ∀ v, R v ↔ S v) : Copied s t k c S := by
  have heq : R = S := funext fun v => propext (hRS v)
  exact heq ▸ h

/-- Tables may be created first. -/
theorem of_grown (hg : Grown s t) (h : Copied t u k c R) : Copied s u k c R where
  ref := h.ref
  priv := h.priv
  frame := fun x hx => (h.frame x hx).trans (congrFun hg.leaf x)
  data := fun p hp => by
    rw [← mapCount_congr hg.leaf] at hp
    rw [h.data p hp, hg.data]
  mapped := fun p hp => h.mapped p (by rwa [mapCount_congr hg.leaf])
  parent := fun v hv => by
    rw [h.parent v hv]
    exact pageOf_eq (by rw [hg.leaf]) (fun _ => by rw [hg.leaf]) (fun _ => by rw [hg.leaf, hg.data])
  child := fun v hv => by
    rw [h.child v hv]
    exact pageOf_eq (by rw [hg.leaf]) (fun _ => by rw [hg.leaf]) (fun _ => by rw [hg.leaf, hg.data])

end Copied

/-- `PTE_COW` marks no page of a set. -/
def NoCow (s : Vm κ) (k : κ) (R : Vpn → Prop) : Prop :=
  ∀ v, R v → (s.leaf (k, v)).valid = true → PteFlags.has (s.leaf (k, v)).flags pteCow = false

/-- The address space maps no page of a set. -/
def Unmapped (s : Vm κ) (c : κ) (R : Vpn → Prop) : Prop :=
  ∀ v, R v → (s.leaf (c, v)).valid = false

/-- An entry that is not valid maps nothing. -/
theorem tgt_none_of_invalid {s : Vm κ} {x : Slot κ} (h : (s.leaf x).valid = false) :
    tgt s x = none := by
  show (s.leaf x).target = none
  rw [Pte.target, h]
  rfl

/-- An entry that is not valid has no page. -/
theorem pageOf_of_invalid {s : Vm κ} {x : Slot κ} (h : (s.leaf x).valid = false) :
    pageOf s x = none := by
  rw [pageOf, h]
  rfl

/-- One page copied, from the two entries it changes: the parent's entry gets the flags
`pf`, and the child's entry maps the page `q` with the flags `cf`. -/
theorem copied_of_leaf {s s' : Vm κ} {k c : κ} {v : Vpn} {q : Frame} {pf cf : PteFlags}
    (hck : c ≠ k) (hv : (s.leaf (k, v)).valid = true) (hun : (s.leaf (c, v)).valid = false)
    (hi : RefInv s') (hpriv : Private s')
    (hleaf : s'.leaf = Function.update (Function.update s.leaf (k, v)
      { s.leaf (k, v) with flags := pf }) (c, v) (pteCreate q cf))
    (hdata : ∀ p, 0 < mapCount s p → s'.data p = s.data p)
    (hq : s'.data q = s.data (s.leaf (k, v)).ppn) (hpv : PteFlags.has pf pteV = true)
    (hpp : perms pf = perms (s.leaf (k, v)).flags)
    (hcp : perms (pteV ||| cf) = perms (s.leaf (k, v)).flags) :
    Copied s s' k c (fun w => w = v) := by
  -- Two different entries change, one of each process.
  have hne : (k, v) ≠ (c, v) := fun h => hck (congrArg Prod.fst h).symm
  have hk : s'.leaf (k, v) = { s.leaf (k, v) with flags := pf } := by
    rw [hleaf, Function.update_of_ne hne, Function.update_self]
  have hc : s'.leaf (c, v) = pteCreate q cf := by
    rw [hleaf, Function.update_self]
  have hother : ∀ x : Slot κ, x ≠ (k, v) → x ≠ (c, v) → s'.leaf x = s.leaf x := by
    intro x hxk hxc
    rw [hleaf, Function.update_of_ne hxc, Function.update_of_ne hxk]
  have hkv : (s'.leaf (k, v)).valid = true := by
    rw [hk]
    exact hpv
  constructor
  case ref => exact hi
  case priv => exact hpriv
  case frame =>
    intro x hx
    apply hother
    · rintro rfl
      exact hx ⟨Or.inl rfl, rfl⟩
    · rintro rfl
      exact hx ⟨Or.inr rfl, rfl⟩
  case data => exact hdata
  -- A page that was mapped still is: the entry of the child pointed nowhere, and that of the parent
  -- keeps its page.
  case mapped =>
    intro p hp
    obtain ⟨x, hx⟩ := mapCount_pos_iff.mp hp
    obtain ⟨hxv, hxp⟩ := tgt_eq_some.mp hx
    apply mapCount_pos_iff.mpr
    refine ⟨x, tgt_eq_some.mpr ?_⟩
    have hxc : x ≠ (c, v) := by
      rintro rfl
      rw [hun] at hxv
      cases hxv
    by_cases hxk : x = (k, v)
    · subst hxk
      exact ⟨hkv, by rw [hk]; exact hxp⟩
    · rw [hother x hxk hxc]
      exact ⟨hxv, hxp⟩
  case parent =>
    rintro w rfl
    apply pageOf_eq
    · rw [hkv, hv]
    · intro _
      rw [hk]
      exact hpp
    · intro _
      rw [hk]
      exact hdata _ (mapCount_pos_of_valid hv)
  case child =>
    rintro w rfl
    apply pageOf_eq
    · rw [hc, valid_pteCreate, hv]
    · intro _
      rw [hc]
      exact hcp
    · intro _
      rw [hc]
      exact hq

/-- The part of `copy_range` for one page, with sharing. -/
theorem copyShared_copied (e : PageOracle) {s : Vm κ} {c k : κ} {la : Nat} (hi : RefInv s)
    (hp : Private s) (hck : c ≠ k) (hv : (s.leaf (k, vpn la)).valid = true)
    (hcow : PteFlags.has (s.leaf (k, vpn la)).flags pteCow = false)
    (htab : s.hasTable (c, vpn la) = true) (hun : (s.leaf (c, vpn la)).valid = false) :
    ∃ s', copyShared e s c k la = (0, s') ∧ Copied s s' k c (fun v => v = vpn la) := by
  have hsteps := copyShared_steps e c hi hv
  have htabk := hasTable_of_valid s _ hv
  have hne : (c, vpn la) ≠ (k, vpn la) := fun h => hck (congrArg Prod.fst h)
  obtain ⟨hcf, -, hcw, hww⟩ := copied_flags _ hcow
  -- In both cases the child maps the parent's page, and neither entry has `PTE_W`.
  have key : ∀ (t s' : Vm κ) (pf cf : PteFlags),
      t.leaf = Function.update s.leaf (k, vpn la) { s.leaf (k, vpn la) with flags := pf } →
      t.data = s.data → s' = insertPte t (c, vpn la) (s.leaf (k, vpn la)).ppn cf →
      t.hasTable (c, vpn la) = true → RefInv s' → PteFlags.has pf pteV = true →
      perms pf = perms (s.leaf (k, vpn la)).flags →
      perms (pteV ||| cf) = perms (s.leaf (k, vpn la)).flags → PteFlags.has pf pteW = false →
      PteFlags.has (pteV ||| cf) pteW = false → Copied s s' k c (fun v => v = vpn la) := by
    intro t s' pf cf htl htd hs' httab hi' hpv hpp hcp hpw hcw
    have htc : t.leaf (c, vpn la) = s.leaf (c, vpn la) := by
      rw [htl, Function.update_of_ne hne]
    have hnone : tgt t (c, vpn la) = none := tgt_none_of_invalid (by rw [htc]; exact hun)
    rw [insertPte_empty hnone] at hs'
    have hspec := mapPte_spec httab hnone (s.leaf (k, vpn la)).ppn cf
    rw [← hs'] at hspec
    have hleaf : s'.leaf = Function.update (Function.update s.leaf (k, vpn la)
        { s.leaf (k, vpn la) with flags := pf }) (c, vpn la)
        (pteCreate (s.leaf (k, vpn la)).ppn cf) := by
      rw [hspec.leaf, htl]
    have hdata : s'.data = s.data := hspec.data.trans htd
    refine copied_of_leaf hck hv hun hi' ?_ hleaf (fun p _ => by rw [hdata]) (by rw [hdata]) hpv
      hpp hcp
    -- The page gets one more entry without `PTE_W`.
    have hsame : ∀ x, x ≠ (c, vpn la) → tgt s' x = tgt s x := by
      intro x hx
      show (s'.leaf x).target = (s.leaf x).target
      rw [hleaf, Function.update_of_ne hx]
      by_cases hxk : x = (k, vpn la)
      · subst hxk
        rw [Function.update_self]
        exact target_with_flags (hpv.trans hv.symm)
      · rw [Function.update_of_ne hxk]
    intro x y p hxy hx hy
    by_cases hxc : x = (c, vpn la)
    · subst hxc
      rw [hleaf, Function.update_self]
      exact hcw
    · by_cases hxk : x = (k, vpn la)
      · subst hxk
        rw [hleaf, Function.update_of_ne hxc, Function.update_self]
        exact hpw
      · have hxl : s'.leaf x = s.leaf x := by
          rw [hleaf, Function.update_of_ne hxc, Function.update_of_ne hxk]
        rw [hxl]
        rw [hsame x hxc] at hx
        by_cases hyc : y = (c, vpn la)
        · subst hyc
          have hpp' : (s.leaf (k, vpn la)).ppn = p := by
            have htgt : tgt s' (c, vpn la) = some (s.leaf (k, vpn la)).ppn := by
              show (s'.leaf (c, vpn la)).target = _
              rw [hleaf, Function.update_self, target_pteCreate]
            rw [htgt] at hy
            exact Option.some.inj hy
          exact hp x (k, vpn la) p hxk hx (tgt_eq_some.mpr ⟨hv, hpp'⟩)
        · rw [hsame y hyc] at hy
          exact hp x y p hxy hx hy
  unfold copyShared at hsteps ⊢
  dsimp only at hsteps ⊢
  by_cases hw : PteFlags.has ((s.leaf (k, vpn la)).flags &&& pteUser) pteW = true
  · rw [if_pos hw] at hsteps ⊢
    obtain ⟨h1, h2, h3, h4⟩ := shared_flags _ hcow hw
    have htab' : (s.setLeaf (k, vpn la) { s.leaf (k, vpn la) with
        flags := ((s.leaf (k, vpn la)).flags &&& ~~~pteW) ||| pteCow }).hasTable (c, vpn la)
        = true := by
      rw [hasTable_setLeaf]
      exact htab
    rw [pageInsert_of_hasTable e htab'] at hsteps ⊢
    obtain ⟨-, -, hd, -⟩ := setLeaf_frame s (k, vpn la) { s.leaf (k, vpn la) with
        flags := ((s.leaf (k, vpn la)).flags &&& ~~~pteW) ||| pteCow }
    have hvalid : PteFlags.has (((s.leaf (k, vpn la)).flags &&& ~~~pteW) ||| pteCow) pteV = true :=
      (valid_markCow _).trans hv
    exact ⟨_, rfl, key _ _ _ _ (leaf_setLeaf htabk) hd rfl htab' (hi.steps hsteps) hvalid h1 h2
      h3 h4⟩
  · rw [if_neg hw] at hsteps ⊢
    rw [pageInsert_of_hasTable e htab] at hsteps ⊢
    have hw' : PteFlags.has (s.leaf (k, vpn la)).flags pteW = false := by
      rw [← hww]
      exact Bool.eq_false_iff.mpr hw
    refine ⟨_, rfl, key s _ (s.leaf (k, vpn la)).flags _ ?_ rfl rfl htab (hi.steps hsteps) hv rfl
      hcf hw' (by rw [hcw, hww]; exact hw')⟩
    exact (Function.update_eq_self _ _).symm

/-- The part of `copy_range` for one page, with copying. -/
theorem copyDup_copied {e : PageOracle} {s s' : Vm κ} {c k : κ} {la : Nat} {ret : Int}
    (hi : RefInv s) (hp : Private s) (hck : c ≠ k) (hv : (s.leaf (k, vpn la)).valid = true)
    (hcow : PteFlags.has (s.leaf (k, vpn la)).flags pteCow = false)
    (htab : s.hasTable (c, vpn la) = true) (hun : (s.leaf (c, vpn la)).valid = false)
    (h : copyDup e s c k la = .ok (ret, s')) :
    ret = 0 ∧ Copied s s' k c (fun v => v = vpn la) := by
  have hsteps := copyDup_steps hi h
  have hne : (k, vpn la) ≠ (c, vpn la) := fun h => hck (congrArg Prod.fst h).symm
  obtain ⟨hcf, -, -, -⟩ := copied_flags _ hcow
  unfold copyDup at h
  rcases allocPage_cases e s with ha | ⟨q, hq, ha⟩
  · rw [ha] at h
    cases h
  · rw [ha] at h
    dsimp only at h
    have htab' : ((grab s q).copyPage q (s.leaf (k, vpn la)).ppn).hasTable (c, vpn la) = true :=
      htab
    have hnone : tgt ((grab s q).copyPage q (s.leaf (k, vpn la)).ppn) (c, vpn la) = none :=
      tgt_none_of_invalid hun
    rw [pageInsert_of_hasTable e htab', insertPte_empty hnone] at h
    simp only [if_true, Except.ok.injEq, Prod.mk.injEq] at h
    obtain ⟨rfl, h⟩ := h
    have hspec := mapPte_spec htab' hnone q ((s.leaf (k, vpn la)).flags &&& pteUser)
    rw [h] at hspec
    -- The new page was mapped nowhere.
    have hfresh : ∀ x, tgt s x ≠ some q := by
      intro x hx
      have hpos := mapCount_pos_iff.mpr ⟨x, hx⟩
      rw [hi.mapCount_of_free hq] at hpos
      omega
    have hleaf : s'.leaf = Function.update (Function.update s.leaf (k, vpn la)
        { s.leaf (k, vpn la) with flags := (s.leaf (k, vpn la)).flags }) (c, vpn la)
        (pteCreate q ((s.leaf (k, vpn la)).flags &&& pteUser)) := by
      rw [hspec.leaf]
      show Function.update s.leaf _ _ = _
      congr 1
      exact (Function.update_eq_self _ _).symm
    have hdata : s'.data = Function.update s.data q (s.data (s.leaf (k, vpn la)).ppn) := hspec.data
    refine ⟨rfl, copied_of_leaf hck hv hun (hi.steps hsteps) ?_ hleaf ?_ ?_ hv rfl hcf⟩
    · have htgt : tgt s' = Function.update (tgt s) (c, vpn la) (some q) := hspec.tgt
      intro x y p hxy hx hy
      rw [htgt] at hx hy
      by_cases hxc : x = (c, vpn la)
      · subst hxc
        rw [Function.update_of_ne (Ne.symm hxy)] at hy
        rw [Function.update_self] at hx
        exact absurd (hx ▸ hy) (hfresh y)
      · rw [Function.update_of_ne hxc] at hx
        have hxl : s'.leaf x = s.leaf x := by
          rw [hspec.leaf, Function.update_of_ne hxc]
          rfl
        rw [hxl]
        by_cases hyc : y = (c, vpn la)
        · subst hyc
          rw [Function.update_self] at hy
          exact absurd (hy ▸ hx) (hfresh x)
        · rw [Function.update_of_ne hyc] at hy
          exact hp x y p hxy hx hy
    · intro p hp'
      have hpq : p ≠ q := by
        rintro rfl
        obtain ⟨x, hx⟩ := mapCount_pos_iff.mp hp'
        exact hfresh x hx
      rw [hdata, Function.update_of_ne hpq]
    · rw [hdata, Function.update_self]

/-! ### `copy_range` -/

/-- The entries of two page boundaries differ. -/
theorem vpn_inj_aligned {a b : Nat} (ha : a < 2 ^ 39) (hb : b < 2 ^ 39) (ha' : a % pgSize = 0)
    (hb' : b % pgSize = 0) (h : vpn a = vpn b) : a = b := by
  have hdiv := vpn_inj ha hb h
  unfold pgSize at ha' hb'
  omega

/-- A range is cut in two. -/
theorem inRange_split {lo mid hi : Nat} (h1 : lo ≤ mid) (h2 : mid ≤ hi) (v : Vpn) :
    InRange lo hi v ↔ InRange lo mid v ∨ InRange mid hi v := by
  constructor
  · rintro ⟨la, hlo, hhi, hal, rfl⟩
    by_cases hm : la < mid
    · exact Or.inl ⟨la, hlo, hm, hal, rfl⟩
    · exact Or.inr ⟨la, by omega, hhi, hal, rfl⟩
  · rintro (⟨la, hlo, hm, hal, rfl⟩ | ⟨la, hm, hhi, hal, rfl⟩)
    · exact ⟨la, hlo, by omega, hal, rfl⟩
    · exact ⟨la, by omega, hhi, hal, rfl⟩

/-- Two parts of a range have no entry in common. -/
theorem inRange_disjoint {lo mid mid' hi : Nat} (hm : mid ≤ mid') (hhi : hi ≤ 2 ^ 39) (v : Vpn)
    (h : InRange lo mid v) : ¬ InRange mid' hi v := by
  rintro ⟨lb, hlb, hlb', hal', hv⟩
  obtain ⟨la, hla, hla', hal, rfl⟩ := h
  have heq := vpn_inj_aligned (by omega) (by omega) hal hal' hv.symm
  omega

/-- The pages of a range that is one page long. -/
theorem inRange_page {lo : Nat} (hlo : lo % pgSize = 0) (v : Vpn) :
    InRange lo (lo + pgSize) v ↔ v = vpn lo := by
  constructor
  · rintro ⟨la, h1, h2, h3, rfl⟩
    have heq : la = lo := by
      unfold pgSize at hlo h2 h3
      omega
    rw [heq]
  · rintro rfl
    exact ⟨lo, Nat.le_refl _, by unfold pgSize; omega, hlo, rfl⟩

omit [Fintype κ] in
/-- Without a table none of the addresses the loop skips is mapped. -/
theorem unmapped_of_not_hasTable {s : Vm κ} {k : κ} {lo : Nat}
    (h : s.hasTable (k, vpn lo) = false) :
    Unmapped s k (InRange lo (roundDown (lo + ptSize) ptSize)) := by
  rintro v ⟨la, h1, h2, -, rfl⟩
  have htab : s.hasTable (k, vpn la) = false := by
    have hsame1 : la / 2 ^ 30 = lo / 2 ^ 30 := by
      unfold roundDown ptSize pgSize at h2
      omega
    have hsame0 : la / 2 ^ 21 = lo / 2 ^ 21 := by
      unfold roundDown ptSize pgSize at h2
      omega
    have hsame : s.hasTable (k, vpn la) = s.hasTable (k, vpn lo) := by
      simp only [hasTable, vpn, pdx1, pdx0, hsame1, hsame0]
    rw [hsame]
    exact h
  rw [leaf_of_not_hasTable s _ htab]
  exact Pte.valid_zero

/-- What `copy_range` finds before it copies the range: the counts are exact, writable
entries are alone, nothing of the range is copy-on-write, and the child has none of it. -/
structure CopyPre (s : Vm κ) (k c : κ) (R : Vpn → Prop) : Prop where
  ref : RefInv s
  priv : Private s
  noCow : NoCow s k R
  unmapped : Unmapped s c R

/-- One round of the loop. -/
theorem copyRangeStep_copied {e : PageOracle} {s s' : Vm κ} {c k : κ} {share : Bool}
    {lo hi next : Nat} (hck : c ≠ k) (hlo : lo % pgSize = 0) (hlt : lo < hi)
    (hpre : CopyPre s k c (InRange lo hi))
    (h : copyRangeStep e c k share lo s = .ok (0, next, s')) :
    lo < next ∧ next % pgSize = 0 ∧ Copied s s' k c (InRange lo (min next hi)) := by
  have hskip : lo < roundDown (lo + ptSize) ptSize ∧
      roundDown (lo + ptSize) ptSize % pgSize = 0 := by
    unfold roundDown ptSize pgSize
    omega
  have hstep : lo < lo + pgSize ∧ (lo + pgSize) % pgSize = 0 := by
    unfold pgSize at *
    omega
  have hself : InRange lo hi (vpn lo) := ⟨lo, Nat.le_refl _, hlt, hlo, rfl⟩
  -- A page that the parent does not have is copied by doing nothing.
  have hnothing : ∀ m, m ≤ hi → Unmapped s k (InRange lo m) → Copied s s k c (InRange lo m) := by
    intro m hm hun
    apply Copied.refl hpre.ref hpre.priv
    intro v hv
    have hc : (s.leaf (c, v)).valid = false :=
      hpre.unmapped v ((inRange_split (by
        obtain ⟨la, h1, h2, -, -⟩ := hv
        omega) hm v).mpr (Or.inl hv))
    rw [pageOf_of_invalid hc, pageOf_of_invalid (hun v hv)]
  unfold copyRangeStep at h
  rw [getPte_read] at h
  cases hx : s.hasTable (k, vpn lo) with
  | false =>
      rw [hx] at h
      simp only [Except.ok.injEq, Prod.mk.injEq] at h
      obtain ⟨-, rfl, rfl⟩ := h
      refine ⟨hskip.1, hskip.2, hnothing _ (Nat.min_le_right _ _) ?_⟩
      intro v hv
      apply unmapped_of_not_hasTable hx v
      obtain ⟨la, h1, h2, h3, h4⟩ := hv
      exact ⟨la, h1, by omega, h3, h4⟩
  | true =>
      rw [hx] at h
      dsimp only at h
      have hmin : ∀ v, InRange lo (min (lo + pgSize) hi) v ↔ v = vpn lo := by
        intro v
        rw [← inRange_page hlo]
        constructor
        · rintro ⟨la, h1, h2, h3, h4⟩
          exact ⟨la, h1, by omega, h3, h4⟩
        · rintro ⟨la, h1, h2, h3, h4⟩
          have heq : la = lo := by
            unfold pgSize at hlo h2 h3
            omega
          exact ⟨la, h1, by omega, h3, h4⟩
      split at h
      · rename_i hv
        obtain ⟨ok, t, hget, hg, htab, -⟩ := getPte_create e c lo s
        rw [hget] at h
        cases ok with
        | false =>
            simp only [Except.ok.injEq, Prod.mk.injEq] at h
            have hne := h.1
            unfold eNoMem at hne
            omega
        | true =>
            have hleaf := hg.leaf
            have hit := hpre.ref.steps hg.steps
            have hpt : Private t := by
              intro x y p hxy hx hy
              rw [hg.tgt] at hx hy
              rw [hleaf]
              exact hpre.priv x y p hxy hx hy
            have hvt : (t.leaf (k, vpn lo)).valid = true := by
              rw [hleaf]
              exact hv
            have hct : PteFlags.has (t.leaf (k, vpn lo)).flags pteCow = false := by
              rw [hleaf]
              exact hpre.noCow _ hself hv
            have hut : (t.leaf (c, vpn lo)).valid = false := by
              rw [hleaf]
              exact hpre.unmapped _ hself
            dsimp only at h
            split at h
            · obtain ⟨u, hcopy, hcop⟩ := copyShared_copied e hit hpt hck hvt hct (htab rfl) hut
              rw [hcopy] at h
              simp only [Except.ok.injEq, Prod.mk.injEq] at h
              obtain ⟨-, rfl, rfl⟩ := h
              exact ⟨hstep.1, hstep.2, (Copied.of_grown hg hcop).congr fun v => (hmin v).symm⟩
            · obtain ⟨⟨r, u⟩, hdup, h⟩ := Halt.bind_eq_ok.mp h
              obtain ⟨-, hcop⟩ := copyDup_copied hit hpt hck hvt hct (htab rfl) hut hdup
              have h' := Except.ok.inj h
              simp only [Prod.mk.injEq] at h'
              obtain ⟨-, rfl, rfl⟩ := h'
              exact ⟨hstep.1, hstep.2, (Copied.of_grown hg hcop).congr fun v => (hmin v).symm⟩
      · rename_i hv
        simp only [Except.ok.injEq, Prod.mk.injEq] at h
        obtain ⟨-, rfl, rfl⟩ := h
        refine ⟨hstep.1, hstep.2, hnothing _ (Nat.min_le_right _ _) ?_⟩
        intro v hv'
        rw [(hmin v).mp hv']
        exact Bool.eq_false_iff.mpr hv

/-- What a call has not copied yet is as it was. -/
theorem Copied.rest {s t : Vm κ} {k c : κ} {R S : Vpn → Prop} (h : Copied s t k c R)
    (hdis : ∀ v, S v → ¬ R v) (hno : NoCow s k S) (hun : Unmapped s c S) : CopyPre t k c S where
  ref := h.ref
  priv := h.priv
  noCow := by
    intro v hv
    have hleaf : t.leaf (k, v) = s.leaf (k, v) := h.frame (k, v) fun hx => hdis v hv hx.2
    rw [hleaf]
    exact hno v hv
  unmapped := by
    intro v hv
    have hleaf : t.leaf (c, v) = s.leaf (c, v) := h.frame (c, v) fun hx => hdis v hv hx.2
    rw [hleaf]
    exact hun v hv

/-- The loop of `copy_range` copies the entries of the range, one after another. -/
theorem copyRangeLoop_copied {e : PageOracle} {c k : κ} {share : Bool} {hi : Nat} (hck : c ≠ k)
    (hhi : hi ≤ 2 ^ 39) : ∀ (fuel lo : Nat) (s s' : Vm κ), lo % pgSize = 0 → lo < hi →
      CopyPre s k c (InRange lo hi) → copyRangeLoop e c k share hi fuel lo s = .ok (0, s') →
      Copied s s' k c (InRange lo hi) := by
  intro fuel
  induction fuel with
  | zero => intro lo s s' _ _ _ h; cases h
  | succ fuel ih =>
      intro lo s s' hlo hlt hpre h
      rw [copyRangeLoop] at h
      obtain ⟨⟨ret, next, t⟩, hstep, h⟩ := Halt.bind_eq_ok.mp h
      dsimp only at h
      split at h
      · rename_i hret
        have h' := Except.ok.inj h
        simp only [Prod.mk.injEq] at h'
        exact absurd h'.1 hret
      · rename_i hret
        have hret0 : ret = 0 := by omega
        subst hret0
        obtain ⟨hnext, hal, hcop⟩ := copyRangeStep_copied hck hlo hlt hpre hstep
        split at h
        · rename_i hmore
          rw [Nat.min_eq_left (by omega)] at hcop
          have hsub : ∀ v, InRange next hi v → InRange lo hi v := fun v hv =>
            (inRange_split (by omega) (by omega) v).mpr (Or.inr hv)
          have hdis : ∀ v, InRange lo next v → ¬ InRange next hi v :=
            inRange_disjoint (Nat.le_refl _) hhi
          have hrest := hcop.rest (S := InRange next hi) (fun v hv hr => hdis v hr hv)
            (fun v hv => hpre.noCow v (hsub v hv)) (fun v hv => hpre.unmapped v (hsub v hv))
          have hnextc := ih next t s' hal hmore.2 hrest h
          exact (hcop.trans hnextc hdis).congr fun v =>
            (inRange_split (by omega) (by omega) v).symm
        · rename_i hmore
          rw [Nat.min_eq_right (by omega)] at hcop
          have h' := Except.ok.inj h
          simp only [Prod.mk.injEq] at h'
          exact h'.2 ▸ hcop

/-- A `copy_range` that succeeds has copied the range. -/
theorem copyRange_copied {e : PageOracle} {s s' : Vm κ} {c k : κ} {share : Bool} {lo hi : Nat}
    (hck : c ≠ k) (hpre : CopyPre s k c (InRange lo hi))
    (h : copyRange e s c k lo hi share = .ok (0, s')) : Copied s s' k c (InRange lo hi) := by
  unfold copyRange at h
  split at h
  · rename_i hasserts
    obtain ⟨hlo, -, hacc⟩ := hasserts
    simp only [userAccess, Bool.and_eq_true, decide_eq_true_eq] at hacc
    have htop : userTop ≤ 2 ^ 39 := by decide
    exact copyRangeLoop_copied hck (by omega) _ _ _ _ hlo hacc.1.2 hpre h
  · cases h

/-! ### A return value other than zero means that memory ran out -/

/-- The copy of one page returns 0 when it returns. -/
theorem copyDup_ret {e : PageOracle} {s s' : Vm κ} {c k : κ} {la : Nat} {ret : Int}
    (h : copyDup e s c k la = .ok (ret, s')) : ret = 0 := by
  unfold copyDup at h
  split at h
  · cases h
  · dsimp only at h
    split at h
    · have h' := Except.ok.inj h
      simp only [Prod.mk.injEq] at h'
      exact h'.1.symm
    · cases h

/-- A round that fails has been refused memory. -/
theorem copyRangeStep_ret {e : PageOracle} {s s' : Vm κ} {c k : κ} {share : Bool}
    {lo next : Nat} {ret : Int} (h : copyRangeStep e c k share lo s = .ok (ret, next, s'))
    (hret : ret ≠ 0) : s'.refused = true := by
  unfold copyRangeStep at h
  rw [getPte_read] at h
  cases hx : s.hasTable (k, vpn lo) with
  | false =>
      rw [hx] at h
      simp only [Except.ok.injEq, Prod.mk.injEq] at h
      exact absurd h.1.symm hret
  | true =>
      rw [hx] at h
      dsimp only at h
      split at h
      · rename_i hv
        obtain ⟨ok, t, hget, hg, htab, href⟩ := getPte_create e c lo s
        rw [hget] at h
        cases ok with
        | false =>
            simp only [Except.ok.injEq, Prod.mk.injEq] at h
            exact h.2.2 ▸ href rfl
        | true =>
            -- With the table in place both kinds of copying return zero.
            exfalso
            dsimp only at h
            split at h
            · simp only [Except.ok.injEq, Prod.mk.injEq] at h
              apply hret
              rw [← h.1]
              unfold copyShared
              dsimp only
              split
              · rw [pageInsert_of_hasTable e (by rw [hasTable_setLeaf]; exact htab rfl)]
              · rw [pageInsert_of_hasTable e (htab rfl)]
            · obtain ⟨⟨r, u⟩, hdup, h⟩ := Halt.bind_eq_ok.mp h
              have h' := Except.ok.inj h
              simp only [Prod.mk.injEq] at h'
              exact hret (h'.1 ▸ copyDup_ret hdup)
      · simp only [Except.ok.injEq, Prod.mk.injEq] at h
        exact absurd h.1.symm hret

/-- A `copy_range` that fails has been refused memory. -/
theorem copyRange_ret {e : PageOracle} {s s' : Vm κ} {c k : κ} {share : Bool} {lo hi : Nat}
    {ret : Int} (h : copyRange e s c k lo hi share = .ok (ret, s')) (hret : ret ≠ 0) :
    s'.refused = true := by
  have key : ∀ (fuel lo : Nat) (s s' : Vm κ) (ret : Int),
      copyRangeLoop e c k share hi fuel lo s = .ok (ret, s') → ret ≠ 0 → s'.refused = true := by
    intro fuel
    induction fuel with
    | zero => intro lo s s' ret h; cases h
    | succ fuel ih =>
        intro lo s s' ret h hret
        rw [copyRangeLoop] at h
        obtain ⟨⟨r, next, t⟩, hstep, h⟩ := Halt.bind_eq_ok.mp h
        dsimp only at h
        split at h
        · rename_i hr
          have h' := Except.ok.inj h
          simp only [Prod.mk.injEq] at h'
          exact h'.2 ▸ copyRangeStep_ret hstep hr
        · split at h
          · exact ih _ _ _ _ h hret
          · have h' := Except.ok.inj h
            simp only [Prod.mk.injEq] at h'
            exact absurd h'.1.symm hret
  unfold copyRange at h
  split at h
  · exact key _ _ _ _ _ h hret
  · cases h

/-! ### Areas and `dup_mmap` -/

/-- A list of areas as `insert_vma_struct` builds it: ascending, apart from each other, of
whole pages of user memory. The cache is one of them. -/
structure MmWf (mm : MmStruct) : Prop where
  sorted : mm.mmapList.Pairwise fun a b => a.vmEnd ≤ b.vmStart
  area : ∀ vma ∈ mm.mmapList, vma.vmStart % pgSize = 0 ∧ vma.vmEnd % pgSize = 0 ∧
    userBase ≤ vma.vmStart ∧ vma.vmStart < vma.vmEnd ∧ vma.vmEnd ≤ userTop
  cache : ∀ vma, mm.mmapCache = some vma → vma ∈ mm.mmapList

/-- Some area contains the address of a page it has. -/
theorem exists_contains {mm : MmStruct} (h : MmWf mm) {addr : Nat} (haddr : addr < 2 ^ 38)
    (hin : InAreas mm.mmapList (vpn addr)) : ∃ vma ∈ mm.mmapList, vma.Contains addr := by
  obtain ⟨vma, hmem, la, h1, h2, h3, h4⟩ := hin
  obtain ⟨-, hend, -, -, htop⟩ := h.area vma hmem
  have htop' : userTop ≤ 2 ^ 38 := by decide
  have hpage := vpn_inj (by omega) (by omega) h4
  refine ⟨vma, hmem, ?_⟩
  unfold pgSize at h3 hend
  exact ⟨by omega, by omega⟩

/-- What `find_vma` returns: an area that contains the address, if there is one. -/
theorem findVma_spec {mm : MmStruct} (h : MmWf mm) (addr : Nat) :
    MmWf (findVma mm addr).2 ∧ (findVma mm addr).2.mmapList = mm.mmapList ∧
      (∀ vma, (findVma mm addr).1 = some vma → vma ∈ mm.mmapList ∧ vma.Contains addr) ∧
      ((∃ vma ∈ mm.mmapList, vma.Contains addr) → (findVma mm addr).1.isSome = true) := by
  -- The result is the cache when it fits and an area of the list otherwise.
  have hres : ∀ vma, (findVma mm addr).1 = some vma → vma ∈ mm.mmapList ∧ vma.Contains addr := by
    intro vma hvma
    unfold findVma at hvma
    dsimp only at hvma
    split at hvma
    · rename_i w hcache
      obtain ⟨hc, hcont⟩ := Option.filter_eq_some_iff.mp hcache
      cases hvma
      exact ⟨h.cache _ hc, by simpa using hcont⟩
    · exact ⟨List.mem_of_find?_eq_some hvma, by simpa using List.find?_some hvma⟩
  refine ⟨⟨h.sorted, h.area, ?_⟩, rfl, hres, ?_⟩
  · intro vma hvma
    have hor : ((findVma mm addr).1.or mm.mmapCache) = some vma := hvma
    cases hfound : (findVma mm addr).1 with
    | none =>
        rw [hfound] at hor
        exact h.cache vma hor
    | some w =>
        rw [hfound] at hor
        have heq : w = vma := Option.some.inj hor
        exact heq ▸ (hres w hfound).1
  · rintro ⟨vma, hmem, hcont⟩
    unfold findVma
    dsimp only
    split
    · rfl
    · rw [List.find?_isSome]
      exact ⟨vma, hmem, by simpa using hcont⟩

/-- Areas in descending order each go to the front of the list. -/
theorem insertVmaStruct_front {mm : MmStruct} {vma : Vma} (hlt : vma.vmStart < vma.vmEnd)
    (hlist : (vma :: mm.mmapList).Pairwise fun a b => a.vmEnd ≤ b.vmStart)
    (hpos : ∀ w ∈ mm.mmapList, w.vmStart < w.vmEnd) :
    insertVmaStruct mm vma =
      .ok { mm with mmapList := vma :: mm.mmapList, mapCount := mm.mapCount + 1 } := by
  have hbefore := (List.pairwise_cons.mp hlist).1
  unfold insertVmaStruct
  cases hl : mm.mmapList with
  | nil => simp [hlt]
  | cons w ws =>
      have hw : vma.vmEnd ≤ w.vmStart := hbefore w (by rw [hl]; exact List.mem_cons_self)
      have hwpos : w.vmStart < w.vmEnd := hpos w (by rw [hl]; exact List.mem_cons_self)
      have hgt : ¬ w.vmStart ≤ vma.vmStart := by omega
      simp [hgt, checkVmaOverlap, hlt, hw, hwpos]

/-- An entry lies in the first area or in one of the others. -/
theorem inAreas_cons {vma : Vma} {vmas : List Vma} {v : Vpn} :
    InAreas (vma :: vmas) v ↔ InRange vma.vmStart vma.vmEnd v ∨ InAreas vmas v := by
  simp [InAreas]

/-- The pages of an area that lies apart from others are not theirs. -/
theorem inAreas_disjoint {vma : Vma} {vmas : List Vma} (htop : vma.vmEnd ≤ userTop)
    (hapart : ∀ w ∈ vmas, w.vmEnd ≤ vma.vmStart) (v : Vpn)
    (h : InRange vma.vmStart vma.vmEnd v) : ¬ InAreas vmas v := by
  rintro ⟨w, hw, hv⟩
  have htop' : userTop ≤ 2 ^ 39 := by decide
  exact inRange_disjoint (hapart w hw) (by omega) v hv h

/-- The loop of `dup_mmap`, with the areas that are left in descending order and those
that are done in `done`. -/
theorem dupMmapLoop_copied {e : PageOracle} {c k : κ} {share : Bool} (hck : c ≠ k) :
    ∀ (left : List Vma) (done mm : MmStruct) (s s' : Vm κ),
      MmWf ⟨left.reverse ++ done.mmapList, none, 0⟩ → done.mmapCache = none →
      CopyPre s k c (InAreas left) →
      dupMmapLoop e c k share left done s = .ok (0, mm, s') →
      mm = ⟨left.reverse ++ done.mmapList, none, done.mapCount + left.length⟩ ∧
        Copied s s' k c (InAreas left) := by
  intro left
  induction left with
  | nil =>
      intro done mm s s' hwf hnone hpre h
      cases h
      refine ⟨by cases done; cases hnone; rfl, ?_⟩
      apply Copied.refl hpre.ref hpre.priv
      rintro v ⟨vma, hmem, -⟩
      cases hmem
  | cons vma left ih =>
      intro done mm s s' hwf hnone hpre h
      -- The loop goes through the areas backwards and puts each in front of those that are done.
      have hlist : (vma :: left).reverse ++ done.mmapList =
          left.reverse ++ (vma :: done.mmapList) := by
        rw [List.reverse_cons, List.append_assoc]
        rfl
      rw [hlist] at hwf ⊢
      obtain ⟨-, hdone, hcross⟩ := List.pairwise_append.mp hwf.sorted
      obtain ⟨-, -, -, hlt, htop⟩ := hwf.area vma (by simp)
      have hins : insertVmaStruct done ⟨vma.vmStart, vma.vmEnd, vma.vmFlags⟩ =
          .ok { done with mmapList := vma :: done.mmapList, mapCount := done.mapCount + 1 } :=
        insertVmaStruct_front hlt hdone fun w hw => (hwf.area w (by simp [hw])).2.2.2.1
      rw [dupMmapLoop] at h
      obtain ⟨done', hdone', h⟩ := Halt.bind_eq_ok.mp h
      rw [hins] at hdone'
      cases hdone'
      obtain ⟨⟨ret, t⟩, hcopy, h⟩ := Halt.bind_eq_ok.mp h
      dsimp only at h
      split at h
      -- `copy_range` failed, and then the result is not 0.
      · have h' := Except.ok.inj h
        simp only [Prod.mk.injEq] at h'
        have hne := h'.1
        unfold eNoMem at hne
        omega
      -- The area is copied, and the others lie below it, so what is still to copy has not changed.
      · rename_i hret
        have hret0 : ret = 0 := by omega
        subst hret0
        have hapart : ∀ w ∈ left, w.vmEnd ≤ vma.vmStart := fun w hw =>
          hcross w (List.mem_reverse.mpr hw) vma List.mem_cons_self
        have hdis := inAreas_disjoint htop hapart
        have hpre1 : CopyPre s k c (InRange vma.vmStart vma.vmEnd) :=
          ⟨hpre.ref, hpre.priv, fun v hv => hpre.noCow v (inAreas_cons.mpr (Or.inl hv)),
            fun v hv => hpre.unmapped v (inAreas_cons.mpr (Or.inl hv))⟩
        have hcop := copyRange_copied hck hpre1 hcopy
        have hrest := hcop.rest (S := InAreas left) (fun v hv hr => hdis v hr hv)
          (fun v hv => hpre.noCow v (inAreas_cons.mpr (Or.inr hv)))
          (fun v hv => hpre.unmapped v (inAreas_cons.mpr (Or.inr hv)))
        obtain ⟨hmm, hcop'⟩ := ih
          { done with mmapList := vma :: done.mmapList, mapCount := done.mapCount + 1 } mm t s' hwf
          hnone hrest h
        have hcount : done.mapCount + 1 + left.length =
            done.mapCount + (vma :: left).length := by
          rw [List.length_cons]
          omega
        exact ⟨by rw [hmm, hcount], (hcop.trans hcop' hdis).congr fun v => inAreas_cons.symm⟩

/-! ### The fault handler -/

/-- A store fault served: the entry `x` is now writable, for its process alone, and no
process sees a difference. -/
structure Resolved (s s' : Vm κ) (x : Slot κ) : Prop where
  ref : RefInv s'
  priv : Private s'
  page : ∀ y, pageOf s' y = pageOf s y
  frame : ∀ y, y ≠ x → s'.leaf y = s.leaf y
  valid : (s'.leaf x).valid = true
  write : PteFlags.has (s'.leaf x).flags pteW = true
  noCow : PteFlags.has (s'.leaf x).flags pteCow = false

/-- The handler of a copy-on-write fault has been refused memory, or the process has the page to
itself. -/
theorem cowFault_resolved (e : PageOracle) {s : Vm κ} {k : κ} {la : Nat} (hi : RefInv s)
    (hp : Private s)
    (hcow : (s.leaf (k, vpn la)).flags &&& (pteV ||| pteCow) = pteV ||| pteCow) :
    ((cowFault e s k la).1 ≠ 0 ∧ (cowFault e s k la).2.refused = true) ∨
      ((cowFault e s k la).1 = 0 ∧ Resolved s (cowFault e s k la).2 (k, vpn la)) := by
  have hv : (s.leaf (k, vpn la)).valid = true := ((cow_test_iff _).mp hcow).1
  have htab := hasTable_of_valid s _ hv
  have hsteps := cowFault_steps e hi hv
  have hx : tgt s (k, vpn la) = some (s.leaf (k, vpn la)).ppn := tgt_eq_some.mpr ⟨hv, rfl⟩
  obtain ⟨hp1, hp2, hw1, hc1, hw2, hc2⟩ := resolved_flags _ hcow
  have href := (hi.counted hv).ref
  unfold cowFault at hsteps ⊢
  dsimp only at hsteps ⊢
  -- The test of the handler: is the page shared?
  by_cases hmany : 1 < s.ref (s.leaf (k, vpn la)).ppn
  · rw [if_pos hmany] at hsteps ⊢
    rcases allocPage_cases e s with ha | ⟨q, hq, ha⟩
    · rw [ha]
      exact Or.inl ⟨show (-eNoMem : Int) ≠ 0 by decide, rfl⟩
    · -- The process gets a copy of its own.
      right
      rw [ha] at hsteps ⊢
      dsimp only at hsteps ⊢
      -- `alloc_page` gave a page with count 0, so that no entry of any process points to it.
      have hfresh : ∀ y, tgt s y ≠ some q := by
        intro y hy
        have hpos := mapCount_pos_iff.mpr ⟨y, hy⟩
        rw [hi.mapCount_of_free hq] at hpos
        omega
      have hother : (s.leaf (k, vpn la)).ppn ≠ q := fun h => hfresh (k, vpn la) (h ▸ hx)
      have htab' : ((grab s q).copyPage q (s.leaf (k, vpn la)).ppn).hasTable (k, vpn la) = true :=
        htab
      have hx' : tgt ((grab s q).copyPage q (s.leaf (k, vpn la)).ppn) (k, vpn la) =
          some (s.leaf (k, vpn la)).ppn := hx
      have hread : ((grab s q).copyPage q (s.leaf (k, vpn la)).ppn).leaf = s.leaf := rfl
      rw [hread, pageInsert_of_hasTable e htab', insertPte_other hx' hother] at hsteps ⊢
      simp only [ne_eq, not_true_eq_false, if_false] at hsteps ⊢
      have hrem := pageRemovePte_spec hx'
      have htab'' := (hrem.hasTable (k, vpn la)).trans htab'
      have hnone : tgt (pageRemovePte ((grab s q).copyPage q (s.leaf (k, vpn la)).ppn)
          (k, vpn la)) (k, vpn la) = none := by
        rw [hrem.tgt, Function.update_self]
      have hmap := mapPte_spec htab'' hnone q
        ((((s.leaf (k, vpn la)).flags &&& pteUser) ||| pteW) &&& ~~~pteCow)
      generalize hs' : mapPte (pageRemovePte ((grab s q).copyPage q (s.leaf (k, vpn la)).ppn)
        (k, vpn la)) (k, vpn la) q
        ((((s.leaf (k, vpn la)).flags &&& pteUser) ||| pteW) &&& ~~~pteCow) = s' at hsteps hmap ⊢
      -- `page_insert` takes the old page out and puts the new one in; both touch this entry only.
      have hleaf : s'.leaf = Function.update s.leaf (k, vpn la) (pteCreate q
          ((((s.leaf (k, vpn la)).flags &&& pteUser) ||| pteW) &&& ~~~pteCow)) := by
        rw [hmap.leaf, hrem.leaf, Function.update_idem]
        rfl
      have hdata : s'.data = Function.update s.data q (s.data (s.leaf (k, vpn la)).ppn) :=
        hmap.data.trans hrem.data
      have hself : s'.leaf (k, vpn la) = pteCreate q
          ((((s.leaf (k, vpn la)).flags &&& pteUser) ||| pteW) &&& ~~~pteCow) := by
        rw [hleaf, Function.update_self]
      have hframe : ∀ y, y ≠ (k, vpn la) → s'.leaf y = s.leaf y := by
        intro y hy
        rw [hleaf, Function.update_of_ne hy]
      refine ⟨trivial, hi.steps hsteps, ?_, ?_, hframe, ?_, ?_, ?_⟩
      -- Private: the new page has one entry. For the old page one entry less can do no harm.
      · intro a b p hab ha' hb'
        have hcase : ∀ y, y ≠ (k, vpn la) → tgt s' y = tgt s y := by
          intro y hy
          unfold tgt
          rw [hframe y hy]
        have hnew : tgt s' (k, vpn la) = some q := by
          unfold tgt
          rw [hself, target_pteCreate]
        by_cases hak : a = (k, vpn la)
        · subst hak
          rw [hcase b (Ne.symm hab)] at hb'
          rw [hnew] at ha'
          exact absurd (ha' ▸ hb') (hfresh b)
        · rw [hcase a hak] at ha'
          by_cases hbk : b = (k, vpn la)
          · subst hbk
            rw [hnew] at hb'
            exact absurd (hb' ▸ ha') (hfresh a)
          · rw [hcase b hbk] at hb'
            rw [hframe a hak]
            exact hp a b p hab ha' hb'
      -- The bytes: the entry sees the copy, and the other entries see pages that were not written.
      · intro y
        by_cases hy : y = (k, vpn la)
        · subst hy
          apply pageOf_eq
          · rw [hself, valid_pteCreate, hv]
          · intro _
            rw [hself]
            exact hp2
          · intro _
            rw [hself, hdata]
            exact Function.update_self ..
        · apply pageOf_eq
          · rw [hframe y hy]
          · intro _
            rw [hframe y hy]
          · intro hvy
            rw [hframe y hy, hdata]
            apply Function.update_of_ne
            rintro heq
            exact hfresh y (tgt_eq_some.mpr ⟨hvy, heq⟩)
      · rw [hself, valid_pteCreate]
      · rw [hself]
        exact hw2
      · rw [hself]
        exact hc2
  · -- The process is the sole owner, and the entry becomes writable as it is.
    rw [if_neg hmany] at hsteps ⊢
    right
    have hone : mapCount s (s.leaf (k, vpn la)).ppn ≤ 1 := by omega
    have hsole := fiberCard_le_one_iff.mp hone
    obtain ⟨-, -, hd, -⟩ := setLeaf_frame s (k, vpn la) { s.leaf (k, vpn la) with
      flags := ((s.leaf (k, vpn la)).flags ||| pteW) &&& ~~~pteCow }
    have hleaf := leaf_setLeaf (s := s) (x := (k, vpn la)) (e := { s.leaf (k, vpn la) with
      flags := ((s.leaf (k, vpn la)).flags ||| pteW) &&& ~~~pteCow }) htab
    generalize s.setLeaf (k, vpn la) { s.leaf (k, vpn la) with
      flags := ((s.leaf (k, vpn la)).flags ||| pteW) &&& ~~~pteCow } = s' at hsteps hd hleaf ⊢
    have hself : s'.leaf (k, vpn la) = { s.leaf (k, vpn la) with
        flags := ((s.leaf (k, vpn la)).flags ||| pteW) &&& ~~~pteCow } := by
      rw [hleaf, Function.update_self]
    have hframe : ∀ y, y ≠ (k, vpn la) → s'.leaf y = s.leaf y := by
      intro y hy
      rw [hleaf, Function.update_of_ne hy]
    have hvalid : (s'.leaf (k, vpn la)).valid = true := by
      rw [hself]
      exact (valid_unmarkCow _).trans hv
    -- Only flags change, so every entry points to where it pointed before.
    have htgt : tgt s' = tgt s := by
      funext y
      unfold tgt
      by_cases hy : y = (k, vpn la)
      · subst hy
        rw [hself]
        exact target_with_flags (valid_unmarkCow _)
      · rw [hframe y hy]
    refine ⟨rfl, hi.steps hsteps, ?_, ?_, hframe, hvalid, ?_, ?_⟩
    -- Private: two entries to one page, one of them this one, would make the count 2.
    · intro a b p hab ha hb
      rw [htgt] at ha hb
      by_cases hak : a = (k, vpn la)
      · subst hak
        rw [hx] at ha
        have hb' : tgt s b = some (s.leaf (k, vpn la)).ppn := hb.trans ha.symm
        exact absurd (hsole _ hx _ hb') hab
      · rw [hframe a hak]
        exact hp a b p hab ha hb
    · intro y
      by_cases hy : y = (k, vpn la)
      · subst hy
        apply pageOf_eq
        · rw [hvalid, hv]
        · intro _
          rw [hself]
          exact hp1
        · intro _
          rw [hself, hd]
      · apply pageOf_eq
        · rw [hframe y hy]
        · intro _
          rw [hframe y hy]
        · intro _
          rw [hframe y hy, hd]
    · rw [hself]
      exact hw1
    · rw [hself]
      exact hc1

/-! ### The invariant of the processes -/

/-- The areas of a process that exists. -/
def areasOf (sys : UserSys κ) (k : κ) : Option (List Vma) := (sys.mms k).map MmStruct.mmapList

/-- The invariant of both systems. -/
structure Good (sys : UserSys κ) : Prop where
  ref : RefInv sys.vm
  priv : Private sys.vm
  /-- Only pages of an area are copy-on-write, so the handler finds their area. -/
  cow : ∀ k v, (sys.vm.leaf (k, v)).valid = true →
    PteFlags.has (sys.vm.leaf (k, v)).flags pteCow = true →
      ∃ mm, sys.mms k = some mm ∧ InAreas mm.mmapList v
  wf : ∀ k mm, sys.mms k = some mm → MmWf mm
  /-- A process that does not exist has no memory. -/
  empty : ∀ k, sys.mms k = none → ∀ v, (sys.vm.leaf (k, v)).valid = false

/-- The handler found an area and remembers it. -/
theorem Good.remember {sys : UserSys κ} (h : Good sys) {k : κ} {mm mm' : MmStruct}
    (hk : sys.mms k = some mm) (hwf : MmWf mm') (hlist : mm'.mmapList = mm.mmapList) :
    Good { sys with mms := Function.update sys.mms k (some mm') } where
  ref := h.ref
  priv := h.priv
  cow := by
    intro j v hv hc
    obtain ⟨w, hw, hin⟩ := h.cow j v hv hc
    by_cases hjk : j = k
    · subst hjk
      rw [hk] at hw
      cases hw
      exact ⟨mm', Function.update_self .., by rw [hlist]; exact hin⟩
    · exact ⟨w, (Function.update_of_ne hjk _ _).trans hw, hin⟩
  wf := by
    intro j w hw
    by_cases hjk : j = k
    · subst hjk
      have hw' : some mm' = some w := (Function.update_self j (some mm') sys.mms).symm.trans hw
      cases hw'
      exact hwf
    · exact h.wf j w ((Function.update_of_ne hjk _ _).symm.trans hw)
  empty := by
    intro j hj v
    by_cases hjk : j = k
    · subst hjk
      have hj' : some mm' = none := (Function.update_self j (some mm') sys.mms).symm.trans hj
      cases hj'
    · exact h.empty j ((Function.update_of_ne hjk _ _).symm.trans hj) v

/-- The cache of areas is not part of the areas. -/
theorem areasOf_remember {sys : UserSys κ} {k : κ} {mm mm' : MmStruct} (vm : Vm κ)
    (hk : sys.mms k = some mm) (hlist : mm'.mmapList = mm.mmapList) :
    areasOf ⟨vm, Function.update sys.mms k (some mm')⟩ = areasOf sys := by
  funext j
  unfold areasOf
  dsimp only
  by_cases hjk : j = k
  · subst hjk
    rw [Function.update_self, hk, Option.map_some, Option.map_some, hlist]
  · rw [Function.update_of_ne hjk]

/-- A served fault keeps the invariant. -/
theorem Good.resolved {sys : UserSys κ} (h : Good sys) {k : κ} {v : Vpn} {vm : Vm κ}
    (hv : (sys.vm.leaf (k, v)).valid = true) (hr : Resolved sys.vm vm (k, v)) :
    Good { sys with vm := vm } where
  ref := hr.ref
  priv := hr.priv
  cow := by
    intro j w hjv hjc
    by_cases hjk : (j, w) = (k, v)
    · rw [hjk] at hjc
      have hno := hr.noCow
      rw [hjc] at hno
      cases hno
    · have hleaf := hr.frame (j, w) hjk
      rw [hleaf] at hjv hjc
      exact h.cow j w hjv hjc
  wf := h.wf
  empty := by
    intro j hj w
    have hjk : (j, w) ≠ (k, v) := by
      rintro heq
      have hold := h.empty j hj w
      rw [heq, hv] at hold
      cases hold
    have hleaf := hr.frame (j, w) hjk
    show (vm.leaf (j, w)).valid = false
    rw [hleaf]
    exact h.empty j hj w

/-- What a store fault does: it fails and changes nothing but the cache, it runs out of
memory, or it serves a page marked copy-on-write. -/
theorem storePageFault_spec (e : PageOracle) {sys : UserSys κ} (h : Good sys) {k : κ}
    (hk : (sys.mms k).isSome = true) (addr : Nat) :
    ∃ ret sys', storePageFault e sys k addr = (ret, sys') ∧ areasOf sys' = areasOf sys ∧
      (sys'.mms k).isSome = true ∧
      ((ret ≠ 0 ∧ sys'.vm = sys.vm ∧ Good sys' ∧
          ¬ (addr < 2 ^ 38 ∧ (sys.vm.leaf (k, vpn addr)).valid = true ∧
            PteFlags.has (sys.vm.leaf (k, vpn addr)).flags pteCow = true)) ∨
        (ret ≠ 0 ∧ sys'.vm.refused = true) ∨
        (ret = 0 ∧ addr < 2 ^ 38 ∧ (sys.vm.leaf (k, vpn addr)).valid = true ∧
          PteFlags.has (sys.vm.leaf (k, vpn addr)).flags pteCow = true ∧
          Resolved sys.vm sys'.vm (k, vpn addr) ∧ Good sys')) := by
  obtain ⟨mm, hmm⟩ := Option.isSome_iff_exists.mp hk
  obtain ⟨hwf, hlist, hsome, hfound⟩ := findVma_spec (h.wf k mm hmm) addr
  unfold storePageFault doPgfault
  rw [hmm]
  dsimp only
  cases hfv : findVma mm addr with
  | mk r mm' =>
      rw [hfv] at hwf hlist hsome hfound
      dsimp only at hwf hlist hsome hfound
      have hgood := h.remember hmm hwf hlist
      have hareas := areasOf_remember sys.vm hmm hlist
      have hupd : (Function.update sys.mms k (some mm') k).isSome = true := by
        rw [Function.update_self]
        rfl
      -- A page marked copy-on-write lies in an area of the process.
      have hin : addr < 2 ^ 38 ∧ (sys.vm.leaf (k, vpn addr)).valid = true ∧
          PteFlags.has (sys.vm.leaf (k, vpn addr)).flags pteCow = true → r.isSome = true := by
        rintro ⟨haddr, hv, hc⟩
        obtain ⟨w, hw, hv'⟩ := h.cow k _ hv hc
        rw [hmm] at hw
        cases hw
        exact hfound (exists_contains (h.wf k mm hmm) haddr hv')
      have hfail : ∀ ret : Int, ret ≠ 0 →
          ¬ (addr < 2 ^ 38 ∧ (sys.vm.leaf (k, vpn addr)).valid = true ∧
            PteFlags.has (sys.vm.leaf (k, vpn addr)).flags pteCow = true) →
          ∃ ret' sys', (ret, (⟨sys.vm, Function.update sys.mms k (some mm')⟩ : UserSys κ)) =
            (ret', sys') ∧ areasOf sys' = areasOf sys ∧ (sys'.mms k).isSome = true ∧
            ((ret' ≠ 0 ∧ sys'.vm = sys.vm ∧ Good sys' ∧
                ¬ (addr < 2 ^ 38 ∧ (sys.vm.leaf (k, vpn addr)).valid = true ∧
                  PteFlags.has (sys.vm.leaf (k, vpn addr)).flags pteCow = true)) ∨
              (ret' ≠ 0 ∧ sys'.vm.refused = true) ∨
              (ret' = 0 ∧ addr < 2 ^ 38 ∧ (sys.vm.leaf (k, vpn addr)).valid = true ∧
                PteFlags.has (sys.vm.leaf (k, vpn addr)).flags pteCow = true ∧
                Resolved sys.vm sys'.vm (k, vpn addr) ∧ Good sys')) :=
        fun ret hret hno => ⟨ret, _, rfl, hareas, hupd, Or.inl ⟨hret, rfl, hgood, hno⟩⟩
      cases r with
      | none =>
          apply hfail (-eInval) (by decide)
          intro hc
          cases hin hc
      | some vma =>
          obtain ⟨hmem, hge, hlt⟩ := hsome vma rfl
          have htop := ((h.wf k mm hmm).area vma hmem).2.2.2.2
          have haddr : addr < 2 ^ 38 := by
            have htop' : userTop ≤ 2 ^ 38 := by decide
            omega
          dsimp only
          rw [if_neg (by omega), getPte_read, vpn_roundDown]
          cases htab : sys.vm.hasTable (k, vpn addr) with
          | false =>
              apply hfail (-eNoMem) (by decide)
              rintro ⟨-, hv, -⟩
              rw [leaf_of_not_hasTable _ _ htab, Pte.valid_zero] at hv
              cases hv
          | true =>
              dsimp only
              by_cases hcow : (sys.vm.leaf (k, vpn addr)).flags &&& (pteV ||| pteCow) =
                  pteV ||| pteCow
              · rw [if_pos ⟨hcow, rfl⟩]
                obtain ⟨hv, hc⟩ := (cow_test_iff _).mp hcow
                have hcow' := hcow
                rw [← vpn_roundDown addr] at hcow'
                have hres := cowFault_resolved e h.ref h.priv hcow'
                generalize cowFault e sys.vm k (roundDown addr pgSize) = out at hres ⊢
                obtain ⟨ret, vm⟩ := out
                refine ⟨ret, _, rfl, areasOf_remember vm hmm hlist, hupd, Or.inr ?_⟩
                rcases hres with ⟨hne, href⟩ | ⟨h0, hr⟩
                · exact Or.inl ⟨hne, href⟩
                · rw [vpn_roundDown] at hr
                  exact Or.inr ⟨h0, haddr, hv, hc, hr, hgood.resolved hv hr⟩
              · rw [if_neg (fun hc => hcow hc.1)]
                apply hfail (-eInval) (by decide)
                rintro ⟨-, hv, hc⟩
                exact hcow ((cow_test_iff _).mpr ⟨hv, hc⟩)

end Refinement

end Ucore.Proofs.Mm
