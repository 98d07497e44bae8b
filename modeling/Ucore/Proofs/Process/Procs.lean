import Ucore.Process.Proc

/-!
# `Ucore.Proofs.Process.Procs`: what the process lists say

`ProcsOk` reads the three kinds of lists off the links: the process list `order`, the hash buckets,
and the children of each process. `set_links` and `hash_proc` add a process to all of them, and
`remove_links` and `unhash_proc` take one away.

The process list and the hash lists share one table of links, in which each process has two nodes.
So `ProcsOk` has one ring for each head, and no two rings share a node. The children are not on such
a list: `cptr` is the first one, `optr` of a child the next one and `yptr` the one in front, which
is a chain in both directions (`Ucore.Lib.Chain`).

* `ProcsOk.link`: `hash_proc` and `set_links` of a new process put it in front of its bucket, of the
  process list, and of the children of its parent.
* `ProcsOk.reap`: `unhash_proc`, `remove_links` and `kfree` of a zombie take it off all three. The
  four assignments of `remove_links` depend on whether the zombie has a brother on either side, and
  `removeLinks_cases` has a case for each.
* `ProcsOk.wakeup`: a wake-up changes no list.
-/

set_option autoImplicit false
set_option linter.unusedSectionVars false

namespace Ucore.Proofs.Process

open Ucore.Lib Ucore.Libs Ucore.Schedule Ucore.Process

variable {P : Type} [DecidableEq P]

/-! ### The rings -/

/-- The lists: the process list, and the buckets that exist. -/
def inTable (k : Option Nat) : Prop := ∀ i, k = some i → i < HASH_LIST_SIZE

/-- The head of a list. -/
def headOf : Option Nat → ListNode P
  | none => .procList
  | some i => .hashList i

/-- What is on a list: the process list is `order`, and each bucket has its own. -/
def nodesOf (order : List P) (bucket : Nat → List P) : Option Nat → List (ListNode P)
  | none => order.map .listLink
  | some i => (bucket i).map .hashLink

variable {order : List P} {bucket : Nat → List P} {kids : P → List P} {s s' : Procs P} {p q : P}
  {i : Nat} {idleproc initproc : P} {fuel : Nat}

/-- Another process list. -/
theorem nodesOf_order (as : List P) :
    nodesOf as bucket = Function.update (nodesOf order bucket) none (as.map .listLink) := by
  funext k
  cases k with
  | none => rw [Function.update_self]; rfl
  | some i => rw [Function.update_of_ne (by simp)]; rfl

/-- Another hash list. -/
theorem nodesOf_bucket (as : List P) : nodesOf order (Function.update bucket i as) =
    Function.update (nodesOf order bucket) (some i) (as.map .hashLink) := by
  funext k
  cases k with
  | none => rw [Function.update_of_ne (by simp)]; rfl
  | some j =>
      by_cases hj : j = i
      · subst hj
        rw [Function.update_self]
        show (Function.update bucket j as j).map ListNode.hashLink = _
        rw [Function.update_self]
      · rw [Function.update_of_ne (by simpa using hj)]
        show (Function.update bucket i as j).map ListNode.hashLink = _
        rw [Function.update_of_ne hj]
        rfl

/-- The process list is one of the lists. -/
theorem inTable_none : inTable none := by
  intro i h
  cases h

/-- The hash lists are those of the table. -/
theorem inTable_some (h : i < HASH_LIST_SIZE) : inTable (some i) := by
  rintro j ⟨⟩
  exact h

/-- A hash is an index of the table. -/
theorem pidHashfn_lt (pid : Int) : pidHashfn pid < HASH_LIST_SIZE := by
  unfold pidHashfn hash32
  rw [BitVec.toNat_ushiftRight, Nat.shiftRight_eq_div_pow]
  have h := (BitVec.ofInt 32 pid * 0x9e370001#32).isLt
  show _ / 2 ^ 22 < 2 ^ 10
  omega

/-- What the lists are, and whose children the processes are. -/
structure ProcsOk (idleproc : P) (s : Procs P) (order : List P) (bucket : Nat → List P)
    (kids : P → List P) : Prop where
  rings : s.links.Rings inTable headOf (nodesOf order bucket)
  order_mem : ∀ p, p ∈ order ↔ p ∈ s.allocated ∧ p ≠ idleproc
  bucket_mem : ∀ i p, p ∈ bucket i ↔ p ∈ order ∧ pidHashfn (s.pid p) = i
  count : s.nr_process = order.length + 1
  nodup : s.allocated.Nodup
  chain : ∀ q ∈ s.allocated, Chain s.yptr s.optr none (s.cptr q) (kids q)
  kids_nodup : ∀ q ∈ s.allocated, (kids q).Nodup
  kids_mem : ∀ q ∈ s.allocated, ∀ p, p ∈ kids q ↔ p ∈ order ∧ s.parent p = some q
  parent : ∀ p ∈ order, ∃ q ∈ s.allocated, s.parent p = some q ∧ s.state q ≠ .zombie
  idle : idleproc ∈ s.allocated ∧ s.state idleproc = .runnable
  wait : ∀ p ∈ s.allocated, s.state p = .sleeping ∨ s.wait_state p = 0

/-- No process is on the process list twice. -/
theorem ProcsOk.order_nodup (h : ProcsOk idleproc s order bucket kids) : order.Nodup := by
  have hring := h.rings.ring none inTable_none
  exact (List.nodup_cons.mp hring.nodup).2.of_map _

/-- No process is on a hash list twice. -/
theorem ProcsOk.bucket_nodup (h : ProcsOk idleproc s order bucket kids) (i : Nat) :
    (bucket i).Nodup := by
  by_cases hi : i < HASH_LIST_SIZE
  · have hring := h.rings.ring (some i) (inTable_some hi)
    exact (List.nodup_cons.mp hring.nodup).2.of_map _
  · have hnil : bucket i = [] := by
      apply List.eq_nil_iff_forall_not_mem.mpr
      intro p hp
      have hlt := pidHashfn_lt (s.pid p)
      rw [((h.bucket_mem i p).mp hp).2] at hlt
      exact hi hlt
    rw [hnil]
    exact List.nodup_nil

/-- The children of two processes are different processes. -/
theorem ProcsOk.kids_apart (h : ProcsOk idleproc s order bucket kids) {r : P}
    (hq : q ∈ s.allocated) (hr : r ∈ s.allocated) (hqr : q ≠ r) (hp : p ∈ kids q) : p ∉ kids r := by
  intro hp'
  have hparent := ((h.kids_mem q hq p).mp hp).2
  rw [((h.kids_mem r hr p).mp hp').2] at hparent
  exact hqr (Option.some.inj hparent).symm

/-! ### States only -/

/-- The lists do not depend on these fields. -/
theorem ProcsOk.states (h : ProcsOk idleproc s order bucket kids) {s' : Procs P}
    (hlinks : s'.links = s.links) (hpid : s'.pid = s.pid) (hparent : s'.parent = s.parent)
    (hcptr : s'.cptr = s.cptr) (hyptr : s'.yptr = s.yptr) (hoptr : s'.optr = s.optr)
    (hnr : s'.nr_process = s.nr_process) (halloc : s'.allocated = s.allocated)
    (hzombie : ∀ q, s.state q ≠ .zombie → s'.state q ≠ .zombie ∨ ∀ p ∈ order, s.parent p ≠ some q)
    (hidle : s'.state idleproc = .runnable)
    (hwait : ∀ p ∈ s.allocated, s'.state p = .sleeping ∨ s'.wait_state p = 0) :
    ProcsOk idleproc s' order bucket kids := by
  constructor
  · rw [hlinks]
    exact h.rings
  · rw [halloc]
    exact h.order_mem
  · rw [hpid]
    exact h.bucket_mem
  · rw [hnr]
    exact h.count
  · rw [halloc]
    exact h.nodup
  · rw [halloc, hyptr, hoptr, hcptr]
    exact h.chain
  · rw [halloc]
    exact h.kids_nodup
  · rw [halloc, hparent]
    exact h.kids_mem
  · rw [halloc, hparent]
    intro p hp
    obtain ⟨q, hq, hpq, hstate⟩ := h.parent p hp
    refine ⟨q, hq, hpq, ?_⟩
    rcases hzombie q hstate with hz | hz
    · exact hz
    · exact absurd hpq (hz p hp)
  · rw [halloc]
    exact ⟨h.idle.1, hidle⟩
  · rw [halloc]
    exact hwait

/-- What `wakeup_proc` does. -/
theorem wakeupProc_cases (h : wakeupProc s p = .ok s') :
    s.state p ≠ .zombie ∧ (s' = s ∨ s' = { s with
      state := Function.update s.state p .runnable
      wait_state := Function.update s.wait_state p 0 }) := by
  unfold wakeupProc at h
  split at h
  · cases h
  · rename_i hz
    refine ⟨hz, ?_⟩
    split at h <;> cases h
    · exact Or.inr rfl
    · exact Or.inl rfl

/-- `wakeup_proc` makes a process runnable. -/
theorem wakeupProc_runnable (h : wakeupProc s p = .ok s') : s'.state p = .runnable := by
  unfold wakeupProc at h
  split at h
  · cases h
  · split at h
    · cases h
      exact Function.update_self ..
    · rename_i hrunnable
      cases h
      exact not_not.mp hrunnable

/-- Waking up a process. -/
theorem ProcsOk.wakeup (h : ProcsOk idleproc s order bucket kids) (hrun : wakeupProc s p = .ok s') :
    ProcsOk idleproc s' order bucket kids := by
  obtain ⟨-, rfl | rfl⟩ := wakeupProc_cases hrun
  · exact h
  · refine h.states rfl rfl rfl rfl rfl rfl rfl rfl ?_ ?_ ?_
    · intro q hq
      left
      show Function.update s.state p .runnable q ≠ .zombie
      by_cases hqp : q = p
      · rw [hqp, Function.update_self]
        simp
      · rwa [Function.update_of_ne hqp]
    · show Function.update s.state p .runnable idleproc = .runnable
      by_cases hip : idleproc = p
      · rw [hip, Function.update_self]
      · rw [Function.update_of_ne hip]
        exact h.idle.2
    · intro q hq
      show Function.update s.state p .runnable q = .sleeping ∨ Function.update s.wait_state p 0 q = 0
      by_cases hqp : q = p
      · rw [hqp, Function.update_self, Function.update_self]
        exact Or.inr rfl
      · rw [Function.update_of_ne hqp, Function.update_of_ne hqp]
        exact h.wait q hq

/-- Nothing depends on the fields of a struct that is not allocated. -/
theorem ProcsOk.congr (h : ProcsOk idleproc s order bucket kids) {s' : Procs P}
    (hlinks : s'.links = s.links) (hnr : s'.nr_process = s.nr_process)
    (halloc : s'.allocated = s.allocated)
    (hsame : ∀ p ∈ s.allocated, s'.state p = s.state p ∧ s'.pid p = s.pid p ∧
      s'.parent p = s.parent p ∧ s'.wait_state p = s.wait_state p ∧ s'.cptr p = s.cptr p ∧
      s'.yptr p = s.yptr p ∧ s'.optr p = s.optr p) :
    ProcsOk idleproc s' order bucket kids := by
  have horder : ∀ p ∈ order, p ∈ s.allocated := fun p hp => ((h.order_mem p).mp hp).1
  constructor
  · rw [hlinks]
    exact h.rings
  · rw [halloc]
    exact h.order_mem
  · intro i p
    rw [h.bucket_mem]
    refine and_congr_right fun hp => ?_
    rw [(hsame p (horder p hp)).2.1]
  · rw [hnr]
    exact h.count
  · rw [halloc]
    exact h.nodup
  · rw [halloc]
    intro q hq
    rw [(hsame q hq).2.2.2.2.1]
    refine (h.chain q hq).congr fun p hp => ?_
    have hp' := horder p (((h.kids_mem q hq p).mp hp).1)
    exact ⟨(hsame p hp').2.2.2.2.2.1, (hsame p hp').2.2.2.2.2.2⟩
  · rw [halloc]
    exact h.kids_nodup
  · rw [halloc]
    intro q hq p
    rw [h.kids_mem q hq]
    refine and_congr_right fun hp => ?_
    rw [(hsame p (horder p hp)).2.2.1]
  · rw [halloc]
    intro p hp
    obtain ⟨q, hq, hpq, hstate⟩ := h.parent p hp
    refine ⟨q, hq, ?_, ?_⟩
    · rw [(hsame p (horder p hp)).2.2.1]
      exact hpq
    · rwa [(hsame q hq).1]
  · rw [halloc]
    refine ⟨h.idle.1, ?_⟩
    rw [(hsame idleproc h.idle.1).1]
    exact h.idle.2
  · rw [halloc]
    intro p hp
    rw [(hsame p hp).1, (hsame p hp).2.2.2.1]
    exact h.wait p hp

/-! ### A new process -/

/-- `hash_proc` and `set_links` of a new process. -/
theorem ProcsOk.link (h : ProcsOk idleproc s order bucket kids) {c : P} (hc : c ∈ s.allocated)
    (hstate : s.state c ≠ .zombie) (hp : p ∉ s.allocated) (hparent : s.parent p = some c)
    (hcptr : s.cptr p = none) (hwait : s.wait_state p = 0)
    (hrun : setLinks (hashProc { s with allocated := p :: s.allocated } p) p = .ok s') :
    ProcsOk idleproc s' (p :: order)
      (Function.update bucket (pidHashfn (s.pid p)) (p :: bucket (pidHashfn (s.pid p))))
      (Function.update (Function.update kids p []) c (p :: kids c)) ∧
    s'.allocated = p :: s.allocated ∧ s'.state = s.state ∧ s'.current = s.current ∧
      s'.parent = s.parent := by
  have hpc : p ≠ c := fun e => hp (e ▸ hc)
  have hpidle : p ≠ idleproc := fun e => hp (e ▸ h.idle.1)
  have hporder : p ∉ order := fun hmem => hp ((h.order_mem p).mp hmem).1
  -- The new process is in no list yet.
  have hkids : ∀ q ∈ s.allocated, p ∉ kids q := fun q hq hmem =>
    hporder ((h.kids_mem q hq p).mp hmem).1
  generalize hi : pidHashfn (s.pid p) = i
  unfold setLinks at hrun
  rw [show (hashProc { s with allocated := p :: s.allocated } p).parent p = some c from
    hparent] at hrun
  cases hrun
  -- `hash_proc` and then `list_add` in `set_links`: both put the process at the head.
  have hrings : (listAdd (listAdd s.links (.hashList i) (.hashLink p)) .procList
      (.listLink p)).Rings inTable headOf
      (nodesOf (p :: order) (Function.update bucket i (p :: bucket i))) := by
    have hhash := h.rings.insert_head (inTable_some (hi ▸ pidHashfn_lt (s.pid p)))
      (e := .hashLink p) (by
        intro j _ hmem
        cases j with
        | none => simp [headOf, nodesOf] at hmem
        | some j =>
            have hmem' : p ∈ bucket j := by simpa [headOf, nodesOf] using hmem
            exact hporder ((h.bucket_mem j p).mp hmem').1)
    rw [show ListNode.hashLink p :: nodesOf order bucket (some i) =
      (p :: bucket i).map ListNode.hashLink from rfl, ← nodesOf_bucket] at hhash
    have hlist := hhash.insert_head inTable_none (e := .listLink p) (by
      intro j _ hmem
      cases j with
      | none =>
          have hmem' : p ∈ order := by simpa [headOf, nodesOf] using hmem
          exact hporder hmem'
      | some j => simp [headOf, nodesOf] at hmem)
    rw [show ListNode.listLink p :: nodesOf order (Function.update bucket i (p :: bucket i)) none =
      (p :: order).map ListNode.listLink from rfl, ← nodesOf_order] at hlist
    exact hlist
  have hzero : s.state p = .sleeping ∨ s.wait_state p = 0 := Or.inr hwait
  refine ⟨⟨?_, ?_, ?_, ?_, ?_, ?_, ?_, ?_, ?_, ?_, ?_⟩, rfl, rfl, rfl, rfl⟩
  · rw [← hi] at hrings ⊢
    exact hrings
  · intro q
    show q ∈ p :: order ↔ q ∈ p :: s.allocated ∧ q ≠ idleproc
    rw [List.mem_cons, List.mem_cons, h.order_mem]
    constructor
    · rintro (rfl | hq)
      · exact ⟨Or.inl rfl, hpidle⟩
      · exact ⟨Or.inr hq.1, hq.2⟩
    · rintro ⟨rfl | hq, hne⟩
      · exact Or.inl rfl
      · exact Or.inr ⟨hq, hne⟩
  -- The chain of its pid, and the others.
  · intro j q
    show q ∈ Function.update bucket i (p :: bucket i) j ↔ q ∈ p :: order ∧ pidHashfn (s.pid q) = j
    by_cases hj : j = i
    · subst hj
      rw [Function.update_self, List.mem_cons, List.mem_cons, h.bucket_mem]
      constructor
      · rintro (rfl | hq)
        · exact ⟨Or.inl rfl, hi⟩
        · exact ⟨Or.inr hq.1, hq.2⟩
      · rintro ⟨rfl | hq, hpid⟩
        · exact Or.inl rfl
        · exact Or.inr ⟨hq, hpid⟩
    · rw [Function.update_of_ne hj, List.mem_cons, h.bucket_mem]
      constructor
      · rintro ⟨hq, hpid⟩
        exact ⟨Or.inr hq, hpid⟩
      · rintro ⟨rfl | hq, hpid⟩
        · exact absurd (hpid.symm.trans hi) hj
        · exact ⟨hq, hpid⟩
  · show s.nr_process + 1 = ((p :: order).length : Int) + 1
    rw [h.count, List.length_cons]
    push_cast
    rfl
  · exact List.nodup_cons.mpr ⟨hp, h.nodup⟩
  · intro q hq
    show Chain (setField (Function.update s.yptr p none) (s.cptr c) (some p))
      (Function.update s.optr p (s.cptr c)) none (Function.update s.cptr c (some p) q)
      (Function.update (Function.update kids p []) c (p :: kids c) q)
    by_cases hqc : q = c
    · subst hqc
      rw [Function.update_self, Function.update_self]
      exact (h.chain q hc).push (hkids q hc) (h.kids_nodup q hc)
    · rw [Function.update_of_ne hqc, Function.update_of_ne hqc]
      by_cases hqp : q = p
      · rw [hqp, Function.update_self]
        exact hcptr
      · have hq' : q ∈ s.allocated := (List.mem_cons.mp hq).resolve_left hqp
        rw [Function.update_of_ne hqp]
        -- Another parent: neither the new process nor the first child of `c` is among its children.
        refine (h.chain q hq').congr fun x hx => ?_
        have hxp : x ≠ p := fun e => hkids q hq' (e ▸ hx)
        -- The first child so far is a child of `c`.
        have hxc : s.cptr c ≠ some x := by
          rw [(h.chain c hc).head_eq]
          intro hhead
          exact h.kids_apart hq' hc hqc hx (List.mem_of_mem_head? hhead)
        rw [setField_of_ne _ _ hxc, Function.update_of_ne hxp, Function.update_of_ne hxp]
        exact ⟨rfl, rfl⟩
  · intro q hq
    by_cases hqc : q = c
    · rw [hqc, Function.update_self]
      exact List.nodup_cons.mpr ⟨hkids c hc, h.kids_nodup c hc⟩
    · rw [Function.update_of_ne hqc]
      by_cases hqp : q = p
      · rw [hqp, Function.update_self]
        exact List.nodup_nil
      · rw [Function.update_of_ne hqp]
        exact h.kids_nodup q ((List.mem_cons.mp hq).resolve_left hqp)
  · intro q hq x
    show x ∈ Function.update (Function.update kids p []) c (p :: kids c) q ↔
      x ∈ p :: order ∧ s.parent x = some q
    by_cases hqc : q = c
    · subst hqc
      rw [Function.update_self, List.mem_cons, List.mem_cons, h.kids_mem q hc]
      constructor
      · rintro (rfl | hx)
        · exact ⟨Or.inl rfl, hparent⟩
        · exact ⟨Or.inr hx.1, hx.2⟩
      · rintro ⟨rfl | hx, hpar⟩
        · exact Or.inl rfl
        · exact Or.inr ⟨hx, hpar⟩
    · rw [Function.update_of_ne hqc]
      by_cases hqp : q = p
      · subst hqp
        rw [Function.update_self]
        -- Nobody has the new process as parent, since it was not there before.
        refine iff_of_false (by simp) ?_
        rintro ⟨hx, hpar⟩
        rcases List.mem_cons.mp hx with rfl | hx
        · rw [hparent] at hpar
          exact hqc (Option.some.inj hpar).symm
        · obtain ⟨r, hr, hxr, -⟩ := h.parent x hx
          rw [hpar] at hxr
          exact hp (Option.some.inj hxr ▸ hr)
      · rw [Function.update_of_ne hqp, h.kids_mem q ((List.mem_cons.mp hq).resolve_left hqp),
          List.mem_cons]
        constructor
        · rintro ⟨hx, hpar⟩
          exact ⟨Or.inr hx, hpar⟩
        · rintro ⟨rfl | hx, hpar⟩
          · rw [hparent] at hpar
            exact absurd (Option.some.inj hpar).symm hqc
          · exact ⟨hx, hpar⟩
  · intro x hx
    rcases List.mem_cons.mp hx with rfl | hx
    · exact ⟨c, List.mem_cons_of_mem x hc, hparent, hstate⟩
    · obtain ⟨r, hr, hxr, hrstate⟩ := h.parent x hx
      exact ⟨r, List.mem_cons_of_mem p hr, hxr, hrstate⟩
  · exact ⟨List.mem_cons_of_mem p h.idle.1, h.idle.2⟩
  · intro x hx
    rcases List.mem_cons.mp hx with rfl | hx
    · exact hzero
    · exact h.wait x hx

/-! ### A reaped process -/

/-- What `remove_links` does behind `unhash_proc` to a process that is not its own sibling. -/
theorem removeLinks_cases {c : P} (hparent : s.parent p = some c) (hself : s.optr p ≠ some p)
    (hrun : removeLinks (unhashProc s p) p = .ok s') :
    s' = { s with
      links := listDel (listDel s.links (.hashLink p)) (.listLink p)
      yptr := setField s.yptr (s.optr p) (s.yptr p)
      optr := setField s.optr (s.yptr p) (s.optr p)
      cptr := if s.yptr p = none then Function.update s.cptr c (s.optr p) else s.cptr
      nr_process := s.nr_process - 1 } := by
  -- `p` is not its own sibling, so its `yptr` is still there when it is read again.
  have hy : setField s.yptr (s.optr p) (s.yptr p) p = s.yptr p := setField_of_ne _ _ hself
  unfold removeLinks at hrun
  dsimp only at hrun
  split at hrun
  · rename_i y hyptr
    cases hrun
    have hyp : s.yptr p = some y := hy.symm.trans hyptr
    rw [if_neg (by rw [hyp]; simp)]
    simp only [unhashProc, hyp]
    rfl
  · rename_i par hyptr hpar
    cases hrun
    cases hpar.symm.trans hparent
    have hyp : s.yptr p = none := hy.symm.trans hyptr
    rw [if_pos hyp]
    simp only [unhashProc, hyp]
    rfl
  · rename_i hyptr hpar
    exact absurd (hpar.symm.trans hparent) (by simp)

/-- Who is left when one process has gone. -/
theorem mem_without {as bs : List P} (hnodup : (as ++ p :: bs).Nodup) (x : P) :
    x ∈ as ++ bs ↔ x ∈ as ++ p :: bs ∧ x ≠ p := by
  have hnot : p ∉ as ++ bs := (List.nodup_cons.mp (List.perm_middle.nodup_iff.mp hnodup)).1
  simp only [List.mem_append, List.mem_cons] at hnot ⊢
  constructor
  · intro hx
    refine ⟨by tauto, ?_⟩
    rintro rfl
    exact hnot hx
  · tauto

/-- `unhash_proc`, `remove_links` and `kfree` of a zombie. -/
theorem ProcsOk.reap (h : ProcsOk idleproc s order bucket kids) {c : P} (hp : p ∈ order)
    (hzombie : s.state p = .zombie) (hparent : s.parent p = some c)
    (hrun : removeLinks (unhashProc s p) p = .ok s') :
    ∃ order' bucket' kids', ProcsOk idleproc (freeProc s' p) order' bucket' kids' ∧
      (∀ x, x ∈ order' ↔ x ∈ order ∧ x ≠ p) ∧ s'.allocated = s.allocated ∧ s'.state = s.state ∧
      s'.current = s.current ∧ s'.parent = s.parent := by
  obtain ⟨r, hr, hpr, hrstate⟩ := h.parent p hp
  obtain rfl : r = c := Option.some.inj (hpr.symm.trans hparent)
  have hpalloc : p ∈ s.allocated := ((h.order_mem p).mp hp).1
  have hpr' : r ≠ p := by
    rintro rfl
    exact hrstate hzombie
  -- The three places of `p`.
  obtain ⟨as, bs, horder⟩ := List.append_of_mem hp
  generalize hi : pidHashfn (s.pid p) = i
  obtain ⟨cs, ds, hbucket⟩ := List.append_of_mem ((h.bucket_mem i p).mpr ⟨hp, hi⟩)
  obtain ⟨ys, zs, hkids⟩ := List.append_of_mem ((h.kids_mem r hr p).mpr ⟨hp, hparent⟩)
  have hchain := h.chain r hr
  have hknodup := h.kids_nodup r hr
  rw [hkids] at hchain hknodup
  have hoptr := hchain.next_mem
  have hyptr := hchain.prev_mem
  rw [Option.or_none] at hyptr
  have hremove := hchain.remove hknodup (by simp)
  have hself : s.optr p ≠ some p := by
    rw [hoptr]
    intro e
    have hzs := List.mem_of_mem_head? e
    exact (List.nodup_cons.mp (List.nodup_append.mp hknodup).2.1).1 hzs
  have hs' := removeLinks_cases hparent hself hrun
  have hcptr : s'.cptr = if ys = [] then Function.update s.cptr r (s.optr p) else s.cptr := by
    rw [hs']
    have hiff : s.yptr p = none ↔ ys = [] := by
      rw [hyptr, List.getLast?_eq_none_iff]
    show (if s.yptr p = none then _ else _) = _
    exact if_congr hiff rfl rfl
  have hmem' : ∀ x, x ∈ as ++ bs ↔ x ∈ order ∧ x ≠ p := by
    have hnodup := h.order_nodup
    rw [horder] at hnodup ⊢
    exact mem_without hnodup
  refine ⟨as ++ bs, Function.update bucket i (cs ++ ds), Function.update kids r (ys ++ zs),
    ⟨?_, ?_, ?_, ?_, ?_, ?_, ?_, ?_, ?_, ?_, ?_⟩, hmem', by rw [hs'], by rw [hs'], by rw [hs'],
    by rw [hs']⟩
  · have hinHash : nodesOf order bucket (some i) =
        cs.map .hashLink ++ .hashLink p :: ds.map .hashLink := by
      show (bucket i).map ListNode.hashLink = _
      rw [hbucket, List.map_append, List.map_cons]
    have hhash := h.rings.unlink (inTable_some (i := i) (hi ▸ pidHashfn_lt (s.pid p))) hinHash
    rw [← List.map_append, ← nodesOf_bucket] at hhash
    have hinList : nodesOf order (Function.update bucket i (cs ++ ds)) none =
        as.map .listLink ++ .listLink p :: bs.map .listLink := by
      show order.map ListNode.listLink = _
      rw [horder, List.map_append, List.map_cons]
    have hlist := hhash.unlink inTable_none hinList
    rw [← List.map_append, ← nodesOf_order] at hlist
    rw [hs']
    exact hlist
  · intro x
    show x ∈ as ++ bs ↔ x ∈ s'.allocated.erase p ∧ x ≠ idleproc
    rw [hmem', h.order_mem, hs', h.nodup.mem_erase_iff]
    tauto
  · intro j x
    show _ ↔ _ ∧ pidHashfn (s'.pid x) = j
    rw [hmem', hs']
    by_cases hj : j = i
    · subst hj
      have hnodup := h.bucket_nodup j
      rw [hbucket] at hnodup
      rw [Function.update_self, mem_without hnodup, ← hbucket, h.bucket_mem, and_right_comm]
    · rw [Function.update_of_ne hj, h.bucket_mem]
      constructor
      · rintro ⟨hx, hpid⟩
        refine ⟨⟨hx, ?_⟩, hpid⟩
        rintro rfl
        exact hj (hpid.symm.trans hi)
      · rintro ⟨⟨hx, -⟩, hpid⟩
        exact ⟨hx, hpid⟩
  · show s'.nr_process = ((as ++ bs).length : Int) + 1
    have hcount := h.count
    rw [horder] at hcount
    simp only [List.length_append, List.length_cons] at hcount ⊢
    rw [hs']
    show s.nr_process - 1 = _
    omega
  · show (s'.allocated.erase p).Nodup
    rw [hs']
    exact h.nodup.erase p
  · intro q hq
    have hq' : q ∈ s.allocated ∧ q ≠ p := by
      have hq'' : q ∈ s'.allocated.erase p := hq
      rw [hs', h.nodup.mem_erase_iff] at hq''
      exact ⟨hq''.2, hq''.1⟩
    show Chain s'.yptr s'.optr none (s'.cptr q) _
    rw [hcptr]
    have hy : s'.yptr = setField s.yptr (s.optr p) (s.yptr p) := by rw [hs']
    have ho : s'.optr = setField s.optr (s.yptr p) (s.optr p) := by rw [hs']
    rw [hy, ho]
    by_cases hqr : q = r
    · subst hqr
      rw [Function.update_self]
      have hhead : (if ys = [] then Function.update s.cptr q (s.optr p) else s.cptr) q =
          if ys = [] then s.optr p else s.cptr q := by
        split
        · rw [Function.update_self]
        · rfl
      rw [hhead]
      exact hremove
    · rw [Function.update_of_ne hqr]
      have hhead : (if ys = [] then Function.update s.cptr r (s.optr p) else s.cptr) q =
          s.cptr q := by
        split
        · rw [Function.update_of_ne hqr]
        · rfl
      rw [hhead]
      refine (h.chain q hq'.1).congr fun x hx => ?_
      -- The siblings of `p` are children of another process.
      have hx' : x ∉ kids r := h.kids_apart hq'.1 hr hqr hx
      rw [hkids] at hx'
      simp only [List.mem_append, List.mem_cons, not_or] at hx'
      constructor
      · apply setField_of_ne
        rw [hoptr]
        intro e
        exact hx'.2.2 (List.mem_of_mem_head? e)
      · apply setField_of_ne
        rw [hyptr]
        intro e
        exact hx'.1 (List.mem_of_mem_getLast? e)
  · intro q hq
    have hq' : q ∈ s.allocated := by
      have hq'' : q ∈ s'.allocated.erase p := hq
      rw [hs'] at hq''
      exact List.mem_of_mem_erase hq''
    by_cases hqr : q = r
    · subst hqr
      rw [Function.update_self]
      exact (List.nodup_cons.mp (List.perm_middle.nodup_iff.mp hknodup)).2
    · rw [Function.update_of_ne hqr]
      exact h.kids_nodup q hq'
  · intro q hq x
    have hq' : q ∈ s.allocated := by
      have hq'' : q ∈ s'.allocated.erase p := hq
      rw [hs'] at hq''
      exact List.mem_of_mem_erase hq''
    show _ ↔ _ ∧ s'.parent x = some q
    rw [hmem', hs']
    by_cases hqr : q = r
    · subst hqr
      rw [Function.update_self, mem_without hknodup, ← hkids, h.kids_mem q hq', and_right_comm]
    · rw [Function.update_of_ne hqr, h.kids_mem q hq']
      constructor
      · rintro ⟨hx, hpar⟩
        refine ⟨⟨hx, ?_⟩, hpar⟩
        rintro rfl
        exact hqr (Option.some.inj (hpar.symm.trans hparent))
      · rintro ⟨⟨hx, -⟩, hpar⟩
        exact ⟨hx, hpar⟩
  · intro x hx
    obtain ⟨q, hq, hxq, hqstate⟩ := h.parent x ((hmem' x).mp hx).1
    refine ⟨q, ?_, ?_, ?_⟩
    · show q ∈ s'.allocated.erase p
      rw [hs', h.nodup.mem_erase_iff]
      refine ⟨?_, hq⟩
      rintro rfl
      exact hqstate hzombie
    · show s'.parent x = some q
      rw [hs']
      exact hxq
    · show s'.state q ≠ .zombie
      rw [hs']
      exact hqstate
  · refine ⟨?_, ?_⟩
    · show idleproc ∈ s'.allocated.erase p
      rw [hs', h.nodup.mem_erase_iff]
      exact ⟨Ne.symm ((h.order_mem p).mp hp).2, h.idle.1⟩
    · show s'.state idleproc = .runnable
      rw [hs']
      exact h.idle.2
  · intro x hx
    have hx' : x ∈ s'.allocated.erase p := hx
    show s'.state x = .sleeping ∨ s'.wait_state x = 0
    rw [hs'] at hx' ⊢
    exact h.wait x (List.mem_of_mem_erase hx')

end Ucore.Proofs.Process
