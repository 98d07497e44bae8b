import Ucore.Proofs.Process.Procs

/-!
# `Ucore.Proofs.Process.Exit`: what becomes of the children

The loop of `do_exit` takes the first child of the process that exits and puts it in front of the
children of `initproc`, until none is left. In between, the next child still has the one that has
gone as its `yptr`. `Family` is the part of `ProcsOk` about children, with a node in front of each
list, and `Family.adopt` is one round.

The node in front is what makes an invariant of the loop possible. Between two rounds the list of
the process that exits is right but for the `yptr` of its first child, and with `front` this is a
list like any other. At the end the list is empty, and the field is not read any more.

`HandedOver` is what the loop leaves: the former children have the parent `initproc`, and `initproc`
may have been woken up, since a zombie among them is for it to reap. `exitChildren_spec` is the
induction on the children, and `ProcsOk.exit` the whole of `do_exit` up to its `schedule`.
-/

set_option autoImplicit false
set_option linter.unusedSectionVars false

namespace Ucore.Proofs.Process

open Ucore.Lib Ucore.Libs Ucore.Schedule Ucore.Process

variable {P : Type} [DecidableEq P] {order : List P} {bucket : Nat → List P} {kids : P → List P}
  {s s' : Procs P} {p q : P} {idleproc initproc : P} {fuel : Nat}

/-! ### The children of a process that exits -/

/-- The children of the allocated processes, with `front q` in front of the children of `q`. -/
structure Family (s : Procs P) (order : List P) (front : P → Option P) (kids : P → List P) :
    Prop where
  chain : ∀ q ∈ s.allocated, Chain s.yptr s.optr (front q) (s.cptr q) (kids q)
  kids_nodup : ∀ q ∈ s.allocated, (kids q).Nodup
  kids_mem : ∀ q ∈ s.allocated, ∀ p, p ∈ kids q ↔ p ∈ order ∧ s.parent p = some q

/-- At the start of `do_exit` no child has been handed over. -/
theorem ProcsOk.family (h : ProcsOk idleproc s order bucket kids) :
    Family s order (fun _ => none) kids :=
  ⟨h.chain, h.kids_nodup, h.kids_mem⟩

/-- The children of two processes are different processes. -/
theorem Family.apart {front : P → Option P} (h : Family s order front kids) {r : P}
    (hq : q ∈ s.allocated) (hr : r ∈ s.allocated) (hqr : q ≠ r) (hp : p ∈ kids q) : p ∉ kids r := by
  intro hp'
  have hparent := ((h.kids_mem q hq p).mp hp).2
  rw [((h.kids_mem r hr p).mp hp').2] at hparent
  exact hqr (Option.some.inj hparent).symm

/-- One round of the loop of `do_exit`: the first child `p` of `c` goes to `initproc`. The next
child of `c` still has `p` in front. -/
theorem Family.adopt {c : P} {y : Option P}
    (h : Family s order (Function.update (fun _ => none) c y) kids) (hc : c ∈ s.allocated)
    (hinit : initproc ∈ s.allocated) (hci : c ≠ initproc) (hp : s.cptr c = some p) :
    ∃ kids', Family { s with
      yptr := setField (Function.update s.yptr p none) (s.cptr initproc) (some p)
      optr := Function.update s.optr p (s.cptr initproc)
      parent := Function.update s.parent p (some initproc)
      cptr := Function.update (Function.update s.cptr c (s.optr p)) initproc (some p) } order
      (Function.update (fun _ => none) c (some p)) kids' := by
  have hchain := h.chain c hc
  have hnodup := h.kids_nodup c hc
  have hinitchain := h.chain initproc hinit
  rw [Function.update_of_ne hci.symm] at hinitchain
  obtain ⟨rest, hkids⟩ : ∃ rest, kids c = p :: rest := by
    have hhead := hchain.head_eq
    rw [hp] at hhead
    cases hk : kids c with
    | nil =>
        rw [hk] at hhead
        cases hhead
    | cons a rest =>
        rw [hk] at hhead
        cases hhead
        exact ⟨rest, rfl⟩
  have hpc : p ∈ kids c := by
    rw [hkids]
    exact List.mem_cons_self
  have hporder := ((h.kids_mem c hc p).mp hpc)
  have hpinit : p ∉ kids initproc := h.apart hc hinit hci hpc
  rw [hkids] at hchain hnodup
  obtain ⟨hprest, hnodup⟩ := List.nodup_cons.mp hnodup
  -- The fields of a process that is neither `p` nor a child of `initproc` stay.
  have hsame : ∀ x, x ≠ p → x ∉ kids initproc →
      setField (Function.update s.yptr p none) (s.cptr initproc) (some p) x = s.yptr x ∧
        Function.update s.optr p (s.cptr initproc) x = s.optr x := by
    intro x hxp hx
    have hhead : s.cptr initproc ≠ some x := by
      rw [hinitchain.head_eq]
      intro e
      exact hx (List.mem_of_mem_head? e)
    rw [setField_of_ne _ _ hhead, Function.update_of_ne hxp, Function.update_of_ne hxp]
    exact ⟨rfl, rfl⟩
  -- `p` goes from the front of one list to the front of the other.
  refine ⟨Function.update (Function.update kids c rest) initproc (p :: kids initproc),
    ?_, ?_, ?_⟩
  · intro q hq
    show Chain (setField (Function.update s.yptr p none) (s.cptr initproc) (some p))
      (Function.update s.optr p (s.cptr initproc)) (Function.update (fun _ => none) c (some p) q)
      (Function.update (Function.update s.cptr c (s.optr p)) initproc (some p) q) _
    by_cases hqi : q = initproc
    · subst hqi
      rw [Function.update_self, Function.update_self, Function.update_of_ne hci.symm]
      exact hinitchain.push hpinit (h.kids_nodup q hinit)
    · rw [Function.update_of_ne hqi, Function.update_of_ne hqi]
      by_cases hqc : q = c
      -- The list it has left. Its first node keeps the `yptr` to `p`, which is the front from now
      -- on.
      · subst hqc
        rw [Function.update_self, Function.update_self, Function.update_self]
        refine hchain.2.2.congr fun x hx => hsame x ?_ ?_
        · exact fun e => hprest (e ▸ hx)
        · refine h.apart hc hinit hci ?_
          rw [hkids]
          exact List.mem_cons_of_mem p hx
      · rw [Function.update_of_ne hqc, Function.update_of_ne hqc, Function.update_of_ne hqc]
        have hqchain := h.chain q hq
        rw [Function.update_of_ne hqc] at hqchain
        refine hqchain.congr fun x hx => hsame x ?_ (h.apart hq hinit hqi hx)
        rintro rfl
        exact h.apart hq hc hqc hx hpc
  · intro q hq
    by_cases hqi : q = initproc
    · rw [hqi, Function.update_self]
      exact List.nodup_cons.mpr ⟨hpinit, h.kids_nodup initproc hinit⟩
    · rw [Function.update_of_ne hqi]
      by_cases hqc : q = c
      · rw [hqc, Function.update_self]
        exact hnodup
      · rw [Function.update_of_ne hqc]
        exact h.kids_nodup q hq
  -- Who is whose child: for `p` by its new parent, for the others as before.
  · intro q hq x
    show _ ↔ x ∈ order ∧ Function.update s.parent p (some initproc) x = some q
    by_cases hxp : x = p
    · subst hxp
      rw [Function.update_self]
      by_cases hqi : q = initproc
      · subst hqi
        rw [Function.update_self]
        exact iff_of_true List.mem_cons_self ⟨hporder.1, rfl⟩
      · rw [Function.update_of_ne hqi]
        refine iff_of_false ?_ fun e => hqi (Option.some.inj e.2).symm
        by_cases hqc : q = c
        · rw [hqc, Function.update_self]
          exact hprest
        · rw [Function.update_of_ne hqc]
          exact h.apart hc hq (Ne.symm hqc) hpc
    · rw [Function.update_of_ne hxp, ← h.kids_mem q hq x]
      by_cases hqi : q = initproc
      · rw [hqi, Function.update_self, List.mem_cons]
        exact or_iff_right hxp
      · rw [Function.update_of_ne hqi]
        by_cases hqc : q = c
        · rw [hqc, Function.update_self, hkids, List.mem_cons]
          exact (or_iff_right hxp).symm
        · rw [Function.update_of_ne hqc]

/-- What the loop of `do_exit` changes: the children of `c` get the parent `initproc`, and
`initproc` may wake up. -/
structure HandedOver (initproc c : P) (s s' : Procs P) : Prop where
  rest : s' = { s with
    yptr := s'.yptr
    optr := s'.optr
    cptr := s'.cptr
    parent := s'.parent
    state := s'.state
    wait_state := s'.wait_state }
  parent : ∀ x, s'.parent x = s.parent x ∨ s.parent x = some c ∧ s'.parent x = some initproc
  state : ∀ x, s'.state x = s.state x ∧ s'.wait_state x = s.wait_state x ∨
    s.state x ≠ .zombie ∧ s'.state x = .runnable ∧ s'.wait_state x = 0

/-- Nothing has been handed over. -/
theorem HandedOver.refl (c : P) (s : Procs P) : HandedOver initproc c s s :=
  ⟨rfl, fun _ => Or.inl rfl, fun _ => Or.inl ⟨rfl, rfl⟩⟩

/-- One child after another. -/
theorem HandedOver.trans {c : P} {s₁ s₂ : Procs P} (hci : c ≠ initproc)
    (h₁ : HandedOver initproc c s s₁) (h₂ : HandedOver initproc c s₁ s₂) :
    HandedOver initproc c s s₂ := by
  refine ⟨?_, ?_, ?_⟩
  · rw [h₂.rest, h₁.rest]
  · intro x
    rcases h₂.parent x with hx | ⟨hx, hx'⟩
    · rw [hx]
      exact h₁.parent x
    · rcases h₁.parent x with hx₁ | ⟨-, hx₁⟩
      · exact Or.inr ⟨hx₁ ▸ hx, hx'⟩
      · exact absurd (Option.some.inj (hx.symm.trans hx₁)) hci
  · intro x
    rcases h₂.state x with ⟨hx, hw⟩ | ⟨hx, hrun, hw⟩
    · rw [hx, hw]
      exact h₁.state x
    · rcases h₁.state x with ⟨hx₁, -⟩ | ⟨hx₁, -, -⟩
      · exact Or.inr ⟨hx₁ ▸ hx, hrun, hw⟩
      · exact Or.inr ⟨hx₁, hrun, hw⟩

/-- A wake-up is part of it. -/
theorem HandedOver.wakeup (c : P) (hrun : wakeupProc s p = .ok s') :
    HandedOver initproc c s s' := by
  obtain ⟨hz, rfl | rfl⟩ := wakeupProc_cases hrun
  · exact HandedOver.refl c s'
  · refine ⟨rfl, fun _ => Or.inl rfl, fun x => ?_⟩
    by_cases hxp : x = p
    · subst hxp
      exact Or.inr ⟨hz, Function.update_self .., Function.update_self ..⟩
    · exact Or.inl ⟨Function.update_of_ne hxp .., Function.update_of_ne hxp ..⟩

/-- The family depends on the pointers between parents and children. -/
theorem Family.congr {front : P → Option P} (h : Family s order front kids) {s' : Procs P}
    (hparent : s'.parent = s.parent) (hcptr : s'.cptr = s.cptr) (hyptr : s'.yptr = s.yptr)
    (hoptr : s'.optr = s.optr) (halloc : s'.allocated = s.allocated) :
    Family s' order front kids := by
  refine ⟨?_, ?_, ?_⟩
  · rw [halloc, hyptr, hoptr, hcptr]
    exact h.chain
  · rw [halloc]
    exact h.kids_nodup
  · rw [halloc, hparent]
    exact h.kids_mem

/-- A wake-up leaves the family. -/
theorem Family.wakeup {front : P → Option P} (h : Family s order front kids)
    (hrun : wakeupProc s p = .ok s') : Family s' order front kids := by
  obtain ⟨-, rfl | rfl⟩ := wakeupProc_cases hrun
  · exact h
  · exact h.congr rfl rfl rfl rfl rfl

/-- The loop of `do_exit` leaves no child behind. -/
theorem exitChildren_spec (hci : s.current ≠ initproc) (hinit : initproc ∈ s.allocated)
    (hc : s.current ∈ s.allocated) : ∀ {fuel : Nat} {s₁ : Procs P} {y : Option P}
    {kids : P → List P}, exitChildren initproc fuel s₁ = .ok s' →
    HandedOver initproc s.current s s₁ →
    Family s₁ order (Function.update (fun _ => none) s.current y) kids →
    HandedOver initproc s.current s s' ∧ (∃ kids', Family s' order (fun _ => none) kids') ∧
      ∀ x ∈ order, s'.parent x ≠ some s.current := by
  intro fuel
  -- The induction is on the rounds, each of which takes the first child away. The child behind it
  -- still has a `yptr` to it, so `y` stands in front of the children that are left.
  induction fuel with
  | zero =>
      intro s₁ y kids hrun
      cases hrun
  | succ fuel ih =>
      intro s₁ y kids hrun hover hfam
      have hcur : s₁.current = s.current := by rw [hover.rest]
      have halloc : s₁.allocated = s.allocated := by rw [hover.rest]
      rw [← halloc] at hinit hc
      unfold exitChildren at hrun
      split at hrun
      · -- no child is left
        rename_i hnone
        cases hrun
        rw [hcur] at hnone
        have hnil : kids s.current = [] := by
          have hhead := (hfam.chain s.current hc).head_eq
          rw [hnone] at hhead
          exact List.head?_eq_none_iff.mp hhead.symm
        refine ⟨hover, ⟨kids, ?_, hfam.kids_nodup, hfam.kids_mem⟩, ?_⟩
        · intro q hq
          by_cases hqc : q = s.current
          · rw [hqc, hnil]
            exact hnone
          · have hchain := hfam.chain q hq
            rwa [Function.update_of_ne hqc] at hchain
        · intro x hx hpar
          have hmem := (hfam.kids_mem s.current hc x).mpr ⟨hx, hpar⟩
          rw [hnil] at hmem
          cases hmem
      -- The first child goes to `initproc`, in front of the children there.
      · rename_i proc hproc
        rw [hcur] at hproc hrun
        obtain ⟨kids', hfam'⟩ := hfam.adopt hc hinit hci hproc
        have hmoved : HandedOver initproc s.current s { s₁ with
            yptr := setField (Function.update s₁.yptr proc none) (s₁.cptr initproc) (some proc)
            optr := Function.update s₁.optr proc (s₁.cptr initproc)
            parent := Function.update s₁.parent proc (some initproc)
            cptr := Function.update (Function.update s₁.cptr s.current (s₁.optr proc)) initproc
              (some proc) } := by
          refine hover.trans hci ⟨rfl, fun x => ?_, fun _ => Or.inl ⟨rfl, rfl⟩⟩
          by_cases hxp : x = proc
          · subst hxp
            refine Or.inr ⟨?_, Function.update_self ..⟩
            have hhead := (hfam.chain s.current hc).head_eq
            rw [hproc] at hhead
            exact ((hfam.kids_mem s.current hc x).mp (List.mem_of_mem_head? hhead.symm)).2
          · exact Or.inl (Function.update_of_ne hxp ..)
        have hhead : Function.update s₁.cptr s.current (s₁.optr proc) initproc =
            s₁.cptr initproc := Function.update_of_ne hci.symm ..
        dsimp only at hrun
        rw [hhead] at hrun
        rw [hcur] at hmoved hfam'
        split at hrun
        -- A zombie child wakes `initproc` up when it waits for a child.
        · obtain ⟨s₂, hwake, hrun⟩ := Halt.bind_eq_ok.mp hrun
          exact ih hrun (hmoved.trans hci (HandedOver.wakeup _ hwake)) (hfam'.wakeup hwake)
        · exact ih hrun hmoved hfam'

/-! ### The whole of `do_exit` -/

/-- `do_exit` makes the current process a zombie without children. -/
theorem ProcsOk.exit (h : ProcsOk idleproc s order bucket kids) (hcur : s.current ∈ s.allocated)
    (hrunning : s.state s.current = .runnable) (hinit : initproc ∈ order)
    (hinitz : s.state initproc ≠ .zombie) {error_code : Int}
    (hrun : exitProc idleproc initproc fuel s error_code = .ok s') :
    s.current ≠ idleproc ∧ s.current ≠ initproc ∧
      (∃ kids', ProcsOk idleproc s' order bucket kids') ∧
      HandedOver initproc s.current { s with
        state := Function.update s.state s.current .zombie
        exit_code := Function.update s.exit_code s.current error_code } s' ∧
      ∀ x ∈ order, s'.parent x ≠ some s.current := by
  unfold exitProc at hrun
  split at hrun
  · cases hrun
  rename_i hidle
  split at hrun
  · cases hrun
  rename_i hci
  refine ⟨hidle, hci, ?_⟩
  dsimp only at hrun
  split at hrun
  · cases hrun
  rename_i proc hproc
  have hfam : Family { s with
      state := Function.update s.state s.current .zombie
      exit_code := Function.update s.exit_code s.current error_code } order
      (Function.update (fun _ => none) s.current none) kids := by
    rw [show Function.update (fun _ => none) s.current none = fun _ : P => (none : Option P) from
      Function.update_eq_self ..]
    exact h.family.congr rfl rfl rfl rfl rfl
  -- The parent may wake up before the loop.
  have hloop : ∃ s₂, HandedOver initproc s.current { s with
      state := Function.update s.state s.current .zombie
      exit_code := Function.update s.exit_code s.current error_code } s₂ ∧
      Family s₂ order (Function.update (fun _ => none) s.current none) kids ∧
      exitChildren initproc fuel s₂ = .ok s' := by
    split at hrun
    · obtain ⟨s₂, hwake, hrun⟩ := Halt.bind_eq_ok.mp hrun
      exact ⟨s₂, HandedOver.wakeup _ hwake, hfam.wakeup hwake, hrun⟩
    · exact ⟨_, HandedOver.refl _ _, hfam, hrun⟩
  clear hrun hfam
  generalize hs₁ : ({ s with
    state := Function.update s.state s.current .zombie
    exit_code := Function.update s.exit_code s.current error_code } : Procs P) = s₁ at hloop ⊢
  obtain ⟨s₂, hover, hfam, hrun⟩ := hloop
  have hstate₁ : s₁.state = Function.update s.state s.current .zombie := by rw [← hs₁]
  have hinitmem : initproc ∈ s.allocated := ((h.order_mem initproc).mp hinit).1
  have hcur₁ : s₁.current = s.current := by rw [← hs₁]
  have halloc₁ : s₁.allocated = s.allocated := by rw [← hs₁]
  obtain ⟨hall, ⟨kids', hfam'⟩, hgone⟩ := exitChildren_spec (s := s₁) (hcur₁ ▸ hci)
    (halloc₁ ▸ hinitmem) (by rw [hcur₁, halloc₁]; exact hcur) hrun
    (hcur₁ ▸ hover) (hcur₁ ▸ hfam)
  rw [hcur₁] at hall hgone
  refine ⟨⟨kids', ?_⟩, hall, hgone⟩
  have halloc : s'.allocated = s.allocated := by rw [hall.rest, ← hs₁]
  constructor
  · rw [hall.rest, ← hs₁]
    exact h.rings
  · rw [halloc]
    exact h.order_mem
  · rw [hall.rest, ← hs₁]
    exact h.bucket_mem
  · rw [hall.rest, ← hs₁]
    exact h.count
  · rw [halloc]
    exact h.nodup
  · exact hfam'.chain
  · exact hfam'.kids_nodup
  · exact hfam'.kids_mem
  · intro x hx
    -- The parent is the old one, or `initproc`.
    have halive : ∀ q, q ≠ s.current → s.state q ≠ .zombie → s'.state q ≠ .zombie := by
      intro q hqc hq
      rcases hall.state q with ⟨hst, -⟩ | ⟨-, hst, -⟩
      · rw [hst, hstate₁, Function.update_of_ne hqc]
        exact hq
      · rw [hst]
        simp
    rcases hall.parent x with hpar | ⟨-, hpar⟩
    · obtain ⟨q, hq, hxq, hqstate⟩ := h.parent x hx
      have hpar' : s'.parent x = some q := by
        rw [hpar, ← hs₁]
        exact hxq
      refine ⟨q, halloc ▸ hq, hpar', halive q ?_ hqstate⟩
      rintro rfl
      exact hgone x hx hpar'
    · exact ⟨initproc, halloc ▸ hinitmem, hpar, halive initproc (Ne.symm hci) hinitz⟩
  · refine ⟨halloc ▸ h.idle.1, ?_⟩
    rcases hall.state idleproc with ⟨hst, -⟩ | ⟨-, hst, -⟩
    · rw [hst, hstate₁, Function.update_of_ne (Ne.symm hidle)]
      exact h.idle.2
    · exact hst
  · rw [halloc]
    intro x hx
    rcases hall.state x with ⟨hst, hw⟩ | ⟨-, -, hw⟩
    · have hwait₁ : s₁.wait_state x = s.wait_state x := by rw [← hs₁]
      rw [hst, hw, hwait₁, hstate₁]
      by_cases hxc : x = s.current
      · subst hxc
        rcases h.wait _ hx with hsleep | hzero
        · rw [hrunning] at hsleep
          cases hsleep
        · exact Or.inr hzero
      · rw [Function.update_of_ne hxc]
        exact h.wait x hx
    · exact Or.inr hw

end Ucore.Proofs.Process
