import Ucore.Lib.Halt
import Ucore.Lib.SkewHeap

/-!
# `Ucore.Libs.SkewHeap`: the skew heaps of the kernel

`libs/skew_heap.h` keeps a heap in three pointers of each node. `Below` reads a tree off the
pointers, and the functions do to it what those of `SkewHeap` do to a tree (`skewHeapMerge_below`,
`Heaped.remove`). The comparison function reads the structs around the nodes, so it does not depend
on the pointers.

`Below s h t` is by recursion on the tree `t`: its root is the node `h`, and the pointers of the
root lead to the subtrees and back. What the parent of the root is, is left open, because a merge is
called on subtrees of a larger tree. A merge writes to the nodes of its two trees only (`Merged`),
and a removal splices the merge of the two children into the place of the node (`Spliced`), so that
the rest of the tree is read as before.

`IsSkewHeap` says that the pointers hold a tree with exactly these nodes that is in heap order, and
`skewHeap_ops` that merging, inserting and removing any node keep this, with the nodes there should
be. The root may also be removed when its key has been raised since it was put in, which is what the
stride scheduler does: the order of the others is all that a removal of the root needs.
-/

set_option autoImplicit false
set_option linter.unusedSectionVars false

namespace Ucore.Libs

open Ucore.Lib

/-- The fields of every `struct skew_heap_entry`; `none` is NULL. -/
structure HeapLinks (N : Type) where
  parent : N → Option N
  left : N → Option N
  right : N → Option N

variable {N : Type} [DecidableEq N]

/-- `if (l) l->parent = a;` -/
def setParent (s : HeapLinks N) (l a : Option N) : HeapLinks N :=
  match l with
  | none => s
  | some l => { s with parent := Function.update s.parent l a }

/-- `a->left = l; a->right = r`. -/
def setChildren (s : HeapLinks N) (a : N) (l r : Option N) : HeapLinks N :=
  { s with left := Function.update s.left a l, right := Function.update s.right a r }

/-- `skew_heap_init`. -/
def skewHeapInit (s : HeapLinks N) (a : N) : HeapLinks N where
  parent := Function.update s.parent a none
  left := Function.update s.left a none
  right := Function.update s.right a none

section
variable (comp : N → N → Int)

/-- The recursion carries fuel. -/
def skewHeapMerge : Nat → HeapLinks N → Option N → Option N → Except Halt (Option N × HeapLinks N)
  | 0, _, _, _ => .error .fuel
  | _ + 1, s, none, b => .ok (b, s)
  | _ + 1, s, some a, none => .ok (some a, s)
  | fuel + 1, s, some a, some b =>
      if comp a b = -1 then do
        let r := s.left a
        let (l, s) ← skewHeapMerge fuel s (s.right a) (some b)
        return (some a, setParent (setChildren s a l r) l (some a))
      else do
        let r := s.left b
        let (l, s) ← skewHeapMerge fuel s (some a) (s.right b)
        return (some b, setParent (setChildren s b l r) l (some b))

/-- `skew_heap_insert`. -/
def skewHeapInsert (fuel : Nat) (s : HeapLinks N) (a : Option N) (b : N) :
    Except Halt (Option N × HeapLinks N) :=
  skewHeapMerge comp fuel (skewHeapInit s b) a (some b)

/-- The child `b` of `p` becomes `rep`. -/
def replaceChild (s : HeapLinks N) (p b : N) (rep : Option N) : HeapLinks N :=
  if s.left p = some b then { s with left := Function.update s.left p rep }
  else { s with right := Function.update s.right p rep }

/-- `skew_heap_remove`: the merged children take the place of the node. -/
def skewHeapRemove (fuel : Nat) (s : HeapLinks N) (a : Option N) (b : N) :
    Except Halt (Option N × HeapLinks N) := do
  let p := s.parent b
  let (rep, s) ← skewHeapMerge comp fuel s (s.left b) (s.right b)
  let s := setParent s rep p
  match p with
  | some p => return (a, replaceChild s p b rep)
  | none => return (rep, s)

end

variable {comp : N → N → Int} {s s' : HeapLinks N} {a b h rep : Option N} {t m : SkewHeap N}
  {x p : N}

/-- The pointers below a node are those of a tree. What the parent of its root is, is left open. -/
def Below (s : HeapLinks N) : Option N → SkewHeap N → Prop
  | h, .nil => h = none
  | h, .node l x r => h = some x ∧ Below s (s.left x) l ∧ Below s (s.right x) r ∧
      ∀ y, s.left x = some y ∨ s.right x = some y → s.parent y = some x

/-- The root of the tree is the node. -/
theorem Below.root (hb : Below s h t) : t.root = h := by
  cases t with
  | nil => exact hb.symm
  | node l x r => exact hb.1.symm

/-- The root is one of the entries. -/
theorem Below.root_mem (hb : Below s (some x) t) : x ∈ t.entries := SkewHeap.mem_of_root hb.root

/-- The pointers have one tree only. -/
theorem Below.unique {t' : SkewHeap N} : ∀ {h : Option N}, Below s h t → Below s h t' → t = t' := by
  induction t generalizing t' with
  | nil =>
      intro h hb hb'
      cases t' with
      | nil => rfl
      | node l x r => exact absurd (hb.symm.trans hb'.1) (by simp)
  | node l x r ihl ihr =>
      intro h hb hb'
      cases t' with
      | nil => exact absurd (hb.1.symm.trans hb') (by simp)
      | node l' x' r' =>
          obtain rfl : x = x' := Option.some.inj (hb.1.symm.trans hb'.1)
          rw [ihl hb.2.1 hb'.2.1, ihr hb.2.2.1 hb'.2.2.1]

/-- The tree does not depend on other nodes, nor on the parent of its root. -/
theorem Below.congr : ∀ {t : SkewHeap N} {h : Option N}, Below s h t → t.entries.Nodup →
    (∀ n ∈ t.entries, s'.left n = s.left n ∧ s'.right n = s.right n) →
    (∀ n ∈ t.entries, h ≠ some n → s'.parent n = s.parent n) → Below s' h t := by
  intro t
  induction t with
  | nil => exact fun hb _ _ _ => hb
  | node l x r ihl ihr =>
      intro h hb hnodup hchild hparent
      obtain ⟨rfl, hl, hr, hpar⟩ := hb
      obtain ⟨hx, hlr⟩ := Multiset.nodup_cons.mp hnodup
      obtain ⟨hnl, hnr, -⟩ := Multiset.nodup_add.mp hlr
      have hbelow : ∀ n, n ∈ l.entries + r.entries → s'.parent n = s.parent n := by
        intro n hn
        refine hparent n (Multiset.mem_cons_of_mem hn) fun heq => hx ?_
        rwa [Option.some.inj heq]
      have hmem : ∀ n, n ∈ l.entries + r.entries → n ∈ (SkewHeap.node l x r).entries :=
        fun n hn => Multiset.mem_cons_of_mem hn
      have hleft : ∀ n ∈ l.entries, n ∈ l.entries + r.entries :=
        fun n hn => Multiset.mem_add.mpr (Or.inl hn)
      have hright : ∀ n ∈ r.entries, n ∈ l.entries + r.entries :=
        fun n hn => Multiset.mem_add.mpr (Or.inr hn)
      obtain ⟨hlx, hrx⟩ := hchild x (Multiset.mem_cons_self ..)
      refine ⟨rfl, ?_, ?_, ?_⟩
      · rw [hlx]
        exact ihl hl hnl (fun n hn => hchild n (hmem n (hleft n hn)))
          fun n hn _ => hbelow n (hleft n hn)
      · rw [hrx]
        exact ihr hr hnr (fun n hn => hchild n (hmem n (hright n hn)))
          fun n hn _ => hbelow n (hright n hn)
      · intro y hy
        rw [hlx, hrx] at hy
        have hmemy : y ∈ l.entries + r.entries := by
          rcases hy with hy | hy
          · exact hleft y (Below.root_mem (hy ▸ hl))
          · exact hright y (Below.root_mem (hy ▸ hr))
        rw [hbelow y hmemy]
        exact hpar y hy

/-- The same links at the nodes of the tree. -/
theorem Below.keep (hb : Below s h t) (hnodup : t.entries.Nodup)
    (hsame : ∀ n ∈ t.entries, s'.left n = s.left n ∧ s'.right n = s.right n ∧
      s'.parent n = s.parent n) : Below s' h t :=
  hb.congr hnodup (fun n hn => ⟨(hsame n hn).1, (hsame n hn).2.1⟩) fun n hn _ => (hsame n hn).2.2

/-! ### Merging -/

/-- A write to a parent leaves the left children. -/
@[simp] theorem setParent_left (l : Option N) : (setParent s l a).left = s.left := by
  cases l <;> rfl

/-- A write to a parent leaves the right children. -/
@[simp] theorem setParent_right (l : Option N) : (setParent s l a).right = s.right := by
  cases l <;> rfl

/-- A write to a parent changes one node. -/
theorem setParent_parent (l : Option N) (n : N) :
    (setParent s l a).parent n = if l = some n then a else s.parent n := by
  cases l with
  | none => simp [setParent]
  | some l =>
      simp only [setParent, Function.update_apply, Option.some.injEq, eq_comm]

/-- A node gets two trees as its children. -/
theorem Below.join {r : Option N} {tr : SkewHeap N} (hm : Below s h m) (hr : Below s r tr)
    (hnodup : (x ::ₘ (m.entries + tr.entries)).Nodup)
    (hpar : ∀ y, r = some y → s.parent y = some x) :
    Below (setParent (setChildren s x h r) h (some x)) (some x) (.node m x tr) := by
  obtain ⟨hx, hmr⟩ := Multiset.nodup_cons.mp hnodup
  obtain ⟨hnm, hnr, hdis⟩ := Multiset.nodup_add.mp hmr
  have hxm : ∀ n ∈ m.entries, n ≠ x := fun n hn heq =>
    hx (Multiset.mem_add.mpr (Or.inl (heq ▸ hn)))
  have hxr : ∀ n ∈ tr.entries, n ≠ x := fun n hn heq =>
    hx (Multiset.mem_add.mpr (Or.inr (heq ▸ hn)))
  have hroot : ∀ n ∈ tr.entries, h ≠ some n := fun n hn heq =>
    Multiset.disjoint_left.mp hdis (Below.root_mem (heq ▸ hm)) hn
  have hlx : (setParent (setChildren s x h r) h (some x)).left x = h := by
    simp [setChildren]
  have hrx : (setParent (setChildren s x h r) h (some x)).right x = r := by
    simp [setChildren]
  have hother : ∀ n, n ≠ x → (setParent (setChildren s x h r) h (some x)).left n = s.left n ∧
      (setParent (setChildren s x h r) h (some x)).right n = s.right n := by
    intro n hn
    simp [setChildren, hn]
  have hparent : ∀ n, h ≠ some n →
      (setParent (setChildren s x h r) h (some x)).parent n = s.parent n := by
    intro n hn
    rw [setParent_parent, if_neg hn]
    rfl
  refine ⟨rfl, ?_, ?_, ?_⟩
  · rw [hlx]
    exact hm.congr hnm (fun n hn => hother n (hxm n hn)) fun n _ hn => hparent n hn
  · rw [hrx]
    exact hr.congr hnr (fun n hn => hother n (hxr n hn)) fun n hn _ => hparent n (hroot n hn)
  · intro y hy
    rw [hlx, hrx] at hy
    rcases hy with hy | hy
    · rw [setParent_parent, if_pos hy]
    · rw [hparent y (hroot y (Below.root_mem (hy ▸ hr)))]
      exact hpar y hy

/-- What a merge of these nodes leaves: everything of the other nodes, and the parent of the
root. -/
structure Merged (s s' : HeapLinks N) (nodes : Multiset N) (root : Option N) : Prop where
  frame : ∀ n, n ∉ nodes → s'.left n = s.left n ∧ s'.right n = s.right n ∧ s'.parent n = s.parent n
  parent : ∀ n, root = some n → s'.parent n = s.parent n

/-- One level of a merge: the node `x` is the root, `m` has been merged, and the other child is as it
was. -/
theorem Merged.level {l : SkewHeap N} {nodes : Multiset N} (hm : Below s' m.root m)
    (hmerged : Merged s s' nodes m.root) (hl : Below s (s.left x) l) (hentries : m.entries = nodes)
    (hnodup : (x ::ₘ (m.entries + l.entries)).Nodup)
    (hpar : ∀ y, s.left x = some y → s.parent y = some x) :
    Below (setParent (setChildren s' x m.root (s.left x)) m.root (some x)) (some x)
        (.node m x l) ∧
      Merged s (setParent (setChildren s' x m.root (s.left x)) m.root (some x))
        (x ::ₘ (m.entries + l.entries)) (some x) := by
  obtain ⟨hx, hml⟩ := Multiset.nodup_cons.mp hnodup
  obtain ⟨-, hnl, hdis⟩ := Multiset.nodup_add.mp hml
  have hout : ∀ n ∈ l.entries, n ∉ nodes := fun n hn hno =>
    Multiset.disjoint_left.mp hdis (hentries.symm ▸ hno) hn
  have hl' : Below s' (s.left x) l := hl.keep hnl fun n hn => hmerged.frame n (hout n hn)
  have hxout : x ∉ nodes := fun hno =>
    hx (Multiset.mem_add.mpr (Or.inl (hentries.symm ▸ hno)))
  have hroot : ∀ n, n ∉ nodes → m.root ≠ some n := fun n hn heq =>
    hn (hentries ▸ SkewHeap.mem_of_root heq)
  refine ⟨hm.join hl' hnodup fun y hy => ?_, fun n hn => ?_, fun n hn => ?_⟩
  · rw [(hmerged.frame y (hout y (Below.root_mem (hy ▸ hl)))).2.2]
    exact hpar y hy
  · have hne : n ≠ x := fun heq => hn (heq ▸ Multiset.mem_cons_self ..)
    have hnn : n ∉ nodes := fun hno =>
      hn (Multiset.mem_cons_of_mem (Multiset.mem_add.mpr (Or.inl (hentries.symm ▸ hno))))
    obtain ⟨h1, h2, h3⟩ := hmerged.frame n hnn
    rw [setParent_parent, if_neg (hroot n hnn)]
    simp [setChildren, hne, h1, h2, h3]
  · obtain rfl : x = n := Option.some.inj hn
    rw [setParent_parent, if_neg (hroot x hxout)]
    exact (hmerged.frame x hxout).2.2

/-- `skew_heap_merge` ends, and the pointers are those of the merged tree. The induction is on the
fuel, which is more than the number of nodes. -/
theorem skewHeapMerge_below (comp : N → N → Int) : ∀ (fuel : Nat) (s : HeapLinks N) (a b : Option N)
    (ta tb : SkewHeap N), Below s a ta → Below s b tb → (ta.entries + tb.entries).Nodup →
    Multiset.card ta.entries + Multiset.card tb.entries < fuel →
    ∃ s', skewHeapMerge comp fuel s a b = .ok ((ta.merge comp tb).root, s') ∧
      Below s' (ta.merge comp tb).root (ta.merge comp tb) ∧
      Merged s s' (ta.entries + tb.entries) (ta.merge comp tb).root := by
  intro fuel
  induction fuel with
  | zero => exact fun _ _ _ _ _ _ _ _ hfuel => absurd hfuel (Nat.not_lt_zero _)
  | succ fuel ih =>
      intro s a b ta tb ha hb hnodup hfuel
      -- An empty heap is returned as it is, with no pointer written. Otherwise the recursion is
      -- into the right child of the smaller root.
      cases ta with
      | nil =>
          obtain rfl : a = none := ha
          rw [SkewHeap.merge_nil_left, hb.root]
          exact ⟨s, rfl, hb, fun _ _ => ⟨rfl, rfl, rfl⟩, fun _ _ => rfl⟩
      | node la xa ra =>
          obtain ⟨rfl, hla, hra, hpa⟩ := ha
          cases tb with
          | nil =>
              obtain rfl : b = none := hb
              rw [SkewHeap.merge_nil_right]
              exact ⟨s, rfl, ⟨rfl, hla, hra, hpa⟩, fun _ _ => ⟨rfl, rfl, rfl⟩, fun _ _ => rfl⟩
          | node lb xb rb =>
              obtain ⟨rfl, hlb, hrb, hpb⟩ := hb
              simp only [SkewHeap.entries_node, Multiset.card_cons, Multiset.card_add] at hfuel
              rw [SkewHeap.merge_node_node, skewHeapMerge]
              by_cases hcomp : comp xa xb = -1
              · -- the root is `xa`, and its right child is merged with the other heap
                have hperm : (SkewHeap.node la xa ra).entries + (SkewHeap.node lb xb rb).entries =
                    xa ::ₘ (ra.entries + (SkewHeap.node lb xb rb).entries + la.entries) := by
                  rw [SkewHeap.entries_node la, Multiset.cons_add]
                  congr 1
                  abel
                rw [hperm] at hnodup ⊢
                obtain ⟨s₁, hrun, hbelow, hmerged⟩ := ih s (s.right xa) (some xb) ra
                  (.node lb xb rb) hra ⟨rfl, hlb, hrb, hpb⟩
                  (Multiset.nodup_add.mp (Multiset.nodup_cons.mp hnodup).2).1 (by
                    simp only [SkewHeap.entries_node, Multiset.card_cons, Multiset.card_add]
                    omega)
                have hentries : (ra.merge comp (.node lb xb rb)).entries = _ :=
                  SkewHeap.entries_merge ..
                obtain ⟨hroot, hall⟩ := Merged.level hbelow hmerged hla hentries
                  (by rw [hentries]; exact hnodup) fun y hy => hpa y (Or.inl hy)
                rw [hentries] at hall
                rw [if_pos hcomp, if_pos hcomp]
                dsimp only
                rw [hrun]
                exact ⟨_, rfl, hroot, hall⟩
              -- the other way round
              · have hperm : (SkewHeap.node la xa ra).entries + (SkewHeap.node lb xb rb).entries =
                    xb ::ₘ ((SkewHeap.node la xa ra).entries + rb.entries + lb.entries) := by
                  rw [SkewHeap.entries_node lb, Multiset.add_cons]
                  congr 1
                  abel
                rw [hperm] at hnodup ⊢
                obtain ⟨s₁, hrun, hbelow, hmerged⟩ := ih s (some xa) (s.right xb)
                  (.node la xa ra) rb ⟨rfl, hla, hra, hpa⟩ hrb
                  (Multiset.nodup_add.mp (Multiset.nodup_cons.mp hnodup).2).1 (by
                    simp only [SkewHeap.entries_node, Multiset.card_cons, Multiset.card_add]
                    omega)
                have hentries : ((SkewHeap.node la xa ra).merge comp rb).entries = _ :=
                  SkewHeap.entries_merge ..
                obtain ⟨hroot, hall⟩ := Merged.level hbelow hmerged hlb hentries
                  (by rw [hentries]; exact hnodup) fun y hy => hpb y (Or.inl hy)
                rw [hentries] at hall
                rw [if_neg hcomp, if_neg hcomp]
                dsimp only
                rw [hrun]
                exact ⟨_, rfl, hroot, hall⟩

/-! ### Removing -/

/-- A child has a parent in the tree. -/
theorem Below.exists_parent : ∀ {t : SkewHeap N} {h : Option N}, Below s h t → x ∈ t.entries →
    h ≠ some x →
    ∃ p ∈ t.entries, s.parent x = some p ∧ (s.left p = some x ∨ s.right p = some x) := by
  intro t
  induction t with
  | nil => exact fun _ hx => absurd hx (Multiset.notMem_zero x)
  | node l y r ihl ihr =>
      intro h hb hx hne
      obtain ⟨rfl, hl, hr, hpar⟩ := hb
      have hxy : x ≠ y := fun heq => hne (by rw [heq])
      rcases Multiset.mem_add.mp ((Multiset.mem_cons.mp hx).resolve_left hxy) with hx | hx
      · by_cases hroot : s.left y = some x
        · exact ⟨y, Multiset.mem_cons_self .., hpar x (Or.inl hroot), Or.inl hroot⟩
        · obtain ⟨p, hp, hpx⟩ := ihl hl hx hroot
          exact ⟨p, Multiset.mem_cons_of_mem (Multiset.mem_add.mpr (Or.inl hp)), hpx⟩
      · by_cases hroot : s.right y = some x
        · exact ⟨y, Multiset.mem_cons_self .., hpar x (Or.inr hroot), Or.inr hroot⟩
        · obtain ⟨p, hp, hpx⟩ := ihr hr hx hroot
          exact ⟨p, Multiset.mem_cons_of_mem (Multiset.mem_add.mpr (Or.inr hp)), hpx⟩

/-- Below each node of the tree there is a part of it. -/
theorem Below.exists_part : ∀ {t : SkewHeap N} {h : Option N}, Below s h t → x ∈ t.entries →
    ∃ l r, Below s (some x) (.node l x r) ∧ (SkewHeap.node l x r).entries ≤ t.entries := by
  intro t
  induction t with
  | nil => exact fun _ hx => absurd hx (Multiset.notMem_zero x)
  | node l y r ihl ihr =>
      intro h hb hx
      obtain ⟨rfl, hl, hr, hpar⟩ := hb
      by_cases hxy : x = y
      · rw [hxy]
        exact ⟨l, r, ⟨rfl, hl, hr, hpar⟩, le_refl _⟩
      · rcases Multiset.mem_add.mp ((Multiset.mem_cons.mp hx).resolve_left hxy) with hx | hx
        · obtain ⟨l', r', hpart, hle⟩ := ihl hl hx
          exact ⟨l', r', hpart, hle.trans
            ((Multiset.le_add_right ..).trans (Multiset.le_cons_self ..))⟩
        · obtain ⟨l', r', hpart, hle⟩ := ihr hr hx
          exact ⟨l', r', hpart, hle.trans
            ((Multiset.le_add_left ..).trans (Multiset.le_cons_self ..))⟩

/-- The children of a node of the tree are in the tree. -/
theorem Below.child_mem (hb : Below s h t) (hp : p ∈ t.entries)
    (hx : s.left p = some x ∨ s.right p = some x) : x ∈ t.entries := by
  obtain ⟨l, r, ⟨-, hl, hr, -⟩, hle⟩ := hb.exists_part hp
  refine Multiset.mem_of_le hle (Multiset.mem_cons_of_mem (Multiset.mem_add.mpr ?_))
  rcases hx with hx | hx
  · exact Or.inl (Below.root_mem (hx ▸ hl))
  · exact Or.inr (Below.root_mem (hx ▸ hr))

/-- The node `x` is out, and `rep` is in its place below `p`. `nodes` are what has been below `x`. -/
structure Spliced (s s' : HeapLinks N) (p x : N) (rep : Option N) (nodes : Multiset N) : Prop where
  parent : ∀ n, n ∉ nodes → s'.parent n = s.parent n
  other : ∀ n, n ∉ nodes → n ≠ p → s'.left n = s.left n ∧ s'.right n = s.right n
  left : s.left p = some x → s'.left p = rep ∧ s'.right p = s.right p
  right : s.left p ≠ some x → s'.left p = s.left p ∧ s'.right p = rep
  rep_parent : ∀ y, rep = some y → s'.parent y = some p

/-- A tree without `x` and without `p` is as it was. -/
theorem Spliced.keep {nodes : Multiset N} (hs : Spliced s s' p x rep nodes) (hb : Below s h t)
    (hnodup : t.entries.Nodup) (hp : p ∉ t.entries) (hout : ∀ n ∈ t.entries, n ∉ nodes) :
    Below s' h t := by
  refine hb.keep hnodup fun n hn => ?_
  have hnp : n ≠ p := fun heq => hp (heq ▸ hn)
  obtain ⟨hl, hr⟩ := hs.other n (hout n hn) hnp
  exact ⟨hl, hr, hs.parent n (hout n hn)⟩

/-- The tree of a heap from which a node behind the root has been taken. The induction is on the
tree, towards the node. -/
theorem Spliced.below {lx rx : SkewHeap N} (hx : Below s (some x) (.node lx x rx))
    (hs : Spliced s s' p x rep (lx.entries + rx.entries)) (hp : s.parent x = some p)
    (hrep : Below s' rep (lx.merge comp rx)) : ∀ {t : SkewHeap N} {h : Option N}, Below s h t →
    t.entries.Nodup → x ∈ t.entries → h ≠ some x →
    p ∈ t.entries ∧ (∀ y, h = some y → y ∉ lx.entries + rx.entries) ∧
      Below s' h (t.remove comp x) := by
  -- what is below `x` is in each tree with `x`
  have hpart : ∀ {u : SkewHeap N} {k : Option N}, Below s k u → x ∈ u.entries →
      ∀ n ∈ lx.entries + rx.entries, n ∈ u.entries := by
    intro u k hu hxu n hn
    obtain ⟨l', r', hpart, hle⟩ := hu.exists_part hxu
    rw [← hx.unique hpart] at hle
    exact Multiset.mem_of_le hle (Multiset.mem_cons_of_mem hn)
  intro t
  induction t with
  | nil => exact fun _ _ hmem => absurd hmem (Multiset.notMem_zero x)
  | node l y r ihl ihr =>
      intro h hb hnodup hmem hne
      obtain ⟨rfl, hl, hr, hpar⟩ := hb
      have hyx : y ≠ x := fun heq => hne (by rw [heq])
      obtain ⟨hy, hlr⟩ := Multiset.nodup_cons.mp hnodup
      obtain ⟨hnl, hnr, hdis⟩ := Multiset.nodup_add.mp hlr
      have hleft : ∀ n ∈ l.entries, n ∈ l.entries + r.entries :=
        fun n hn => Multiset.mem_add.mpr (Or.inl hn)
      have hright : ∀ n ∈ r.entries, n ∈ l.entries + r.entries :=
        fun n hn => Multiset.mem_add.mpr (Or.inr hn)
      rw [SkewHeap.remove, if_neg hyx]
      rcases Multiset.mem_add.mp ((Multiset.mem_cons.mp hmem).resolve_left (Ne.symm hyx)) with
        hxl | hxr
      · -- the right side stays
        rw [if_pos hxl]
        have hsub := hpart hl hxl
        have hyout : y ∉ lx.entries + rx.entries := fun hno => hy (hleft y (hsub y hno))
        have hrout : ∀ n ∈ r.entries, n ∉ lx.entries + rx.entries := fun n hn hno =>
          Multiset.disjoint_left.mp hdis (hsub n hno) hn
        have hkeep : ∀ n, s.right y = some n → s'.parent n = some y := by
          intro n hn
          rw [hs.parent n (hrout n (Below.root_mem (hn ▸ hr)))]
          exact hpar n (Or.inr hn)
        -- When `y` is the parent of `x`, the merged children come in the place of `x`. Otherwise
        -- `y` keeps its pointers, and the induction hypothesis is about its child.
        by_cases hroot : s.left y = some x
        · obtain rfl : y = p := Option.some.inj ((hpar x (Or.inl hroot)).symm.trans hp)
          obtain ⟨hl', hr'⟩ := hs.left hroot
          have hlx : Below s (some x) l := hroot ▸ hl
          have hrem : l.remove comp x = lx.merge comp rx := by
            rw [hlx.unique hx, SkewHeap.remove, if_pos rfl]
          refine ⟨Multiset.mem_cons_self .., fun n hn => Option.some.inj hn ▸ hyout, rfl, ?_, ?_,
            fun n hn => ?_⟩
          · rw [hl', hrem]
            exact hrep
          · rw [hr']
            exact hs.keep hr hnr (fun hno => hy (hright y hno)) hrout
          · rw [hl', hr'] at hn
            exact hn.elim (hs.rep_parent n) (hkeep n)
        · obtain ⟨hpl, hrootout, hbelow⟩ := ihl hl hnl hxl hroot
          have hyp : y ≠ p := fun heq => hy (hleft y (heq ▸ hpl))
          obtain ⟨hl', hr'⟩ := hs.other y hyout hyp
          refine ⟨Multiset.mem_cons_of_mem (hleft p hpl), fun n hn => Option.some.inj hn ▸ hyout, rfl,
            ?_, ?_, fun n hn => ?_⟩
          · rw [hl']
            exact hbelow
          · rw [hr']
            exact hs.keep hr hnr (fun hno => Multiset.disjoint_left.mp hdis hpl hno) hrout
          · rw [hl', hr'] at hn
            rcases hn with hn | hn
            · rw [hs.parent n (hrootout n hn)]
              exact hpar n (Or.inl hn)
            · exact hkeep n hn
      · -- the left side stays
        have hxl : x ∉ l.entries := fun hno => Multiset.disjoint_left.mp hdis hno hxr
        rw [if_neg hxl]
        have hsub := hpart hr hxr
        have hyout : y ∉ lx.entries + rx.entries := fun hno => hy (hright y (hsub y hno))
        have hlout : ∀ n ∈ l.entries, n ∉ lx.entries + rx.entries := fun n hn hno =>
          Multiset.disjoint_left.mp hdis hn (hsub n hno)
        have hkeep : ∀ n, s.left y = some n → s'.parent n = some y := by
          intro n hn
          rw [hs.parent n (hlout n (Below.root_mem (hn ▸ hl)))]
          exact hpar n (Or.inl hn)
        by_cases hroot : s.right y = some x
        · obtain rfl : y = p := Option.some.inj ((hpar x (Or.inr hroot)).symm.trans hp)
          have hlx : s.left y ≠ some x := fun heq => hxl (Below.root_mem (heq ▸ hl))
          obtain ⟨hl', hr'⟩ := hs.right hlx
          have hrx : Below s (some x) r := hroot ▸ hr
          have hrem : r.remove comp x = lx.merge comp rx := by
            rw [hrx.unique hx, SkewHeap.remove, if_pos rfl]
          refine ⟨Multiset.mem_cons_self .., fun n hn => Option.some.inj hn ▸ hyout, rfl, ?_, ?_,
            fun n hn => ?_⟩
          · rw [hl']
            exact hs.keep hl hnl (fun hno => hy (hleft y hno)) hlout
          · rw [hr', hrem]
            exact hrep
          · rw [hl', hr'] at hn
            exact hn.elim (hkeep n) (hs.rep_parent n)
        · obtain ⟨hpr, hrootout, hbelow⟩ := ihr hr hnr hxr hroot
          have hyp : y ≠ p := fun heq => hy (hright y (heq ▸ hpr))
          obtain ⟨hl', hr'⟩ := hs.other y hyout hyp
          refine ⟨Multiset.mem_cons_of_mem (hright p hpr), fun n hn => Option.some.inj hn ▸ hyout,
            rfl, ?_, ?_, fun n hn => ?_⟩
          · rw [hl']
            exact hs.keep hl hnl (fun hno => Multiset.disjoint_left.mp hdis hno hpr) hlout
          · rw [hr']
            exact hbelow
          · rw [hl', hr'] at hn
            rcases hn with hn | hn
            · exact hkeep n hn
            · rw [hs.parent n (hrootout n hn)]
              exact hpar n (Or.inr hn)

/-- What the end of `skew_heap_remove` does. -/
theorem replaceChild_spliced {s₁ : HeapLinks N} {nodes : Multiset N}
    (hmerged : Merged s s₁ nodes rep) (hout : ∀ n, n ∉ nodes → rep ≠ some n) (hp : p ∉ nodes) :
    Spliced s (replaceChild (setParent s₁ rep (some p)) p x rep) p x rep nodes := by
  obtain ⟨hlp, hrp, -⟩ := hmerged.frame p hp
  have hparent : (replaceChild (setParent s₁ rep (some p)) p x rep).parent =
      (setParent s₁ rep (some p)).parent := by
    unfold replaceChild
    split <;> rfl
  refine ⟨fun n hn => ?_, fun n hn hnp => ?_, fun hleft => ?_, fun hright => ?_, fun y hy => ?_⟩
  · rw [hparent, setParent_parent, if_neg (hout n hn)]
    exact (hmerged.frame n hn).2.2
  · obtain ⟨h1, h2, -⟩ := hmerged.frame n hn
    unfold replaceChild
    split <;> simp [hnp, h1, h2]
  · unfold replaceChild
    rw [setParent_left, hlp, if_pos hleft]
    simp [hrp]
  · unfold replaceChild
    rw [setParent_left, hlp, if_neg hright]
    simp [hlp]
  · rw [hparent, setParent_parent, if_pos hy]

/-- A heap: a tree whose root has no parent. -/
structure Heaped (s : HeapLinks N) (a : Option N) (t : SkewHeap N) : Prop where
  below : Below s a t
  nodup : t.entries.Nodup
  parent : ∀ x, a = some x → s.parent x = none

/-- `skew_heap_merge` of two heaps without a common node. -/
theorem Heaped.merge (comp : N → N → Int) {ta tb : SkewHeap N} (ha : Heaped s a ta) (hb : Heaped s b tb)
    (hnodup : (ta.entries + tb.entries).Nodup) : ∃ fuel r s',
    skewHeapMerge comp fuel s a b = .ok (r, s') ∧ Heaped s' r (ta.merge comp tb) := by
  obtain ⟨s', hrun, hbelow, hmerged⟩ := skewHeapMerge_below comp _ s a b ta tb ha.below
    hb.below hnodup (Nat.lt_succ_self _)
  refine ⟨_, _, s', hrun, hbelow, by rwa [SkewHeap.entries_merge], fun x hx => ?_⟩
  rw [hmerged.parent x hx]
  -- the root is one of the two roots
  have hroot : a = some x ∨ b = some x := by
    rw [← ha.below.root, ← hb.below.root]
    exact SkewHeap.root_merge hx
  exact hroot.elim (ha.parent x) (hb.parent x)

/-- `skew_heap_insert` of a node that is not in the heap. -/
theorem Heaped.insert (comp : N → N → Int) (ha : Heaped s a t) (hx : x ∉ t.entries) : ∃ fuel r s',
    skewHeapInsert comp fuel s a x = .ok (r, s') ∧ Heaped s' r (t.insert comp x) := by
  have hne : ∀ n ∈ t.entries, n ≠ x := fun n hn heq => hx (heq ▸ hn)
  have ha' : Heaped (skewHeapInit s x) a t := by
    refine ⟨ha.below.keep ha.nodup fun n hn => ?_, ha.nodup, fun y hy => ?_⟩
    · simp [skewHeapInit, hne n hn]
    · have hy' := hne y (Below.root_mem (hy ▸ ha.below))
      simp [skewHeapInit, hy', ha.parent y hy]
  have hb' : Heaped (skewHeapInit s x) (some x) (.node .nil x .nil) := by
    refine ⟨⟨rfl, ?_, ?_, fun y hy => ?_⟩, by simp, fun y hy => ?_⟩
    · simp [skewHeapInit, Below]
    · simp [skewHeapInit, Below]
    · simp [skewHeapInit] at hy
    · simp [skewHeapInit, Option.some.inj hy]
  refine ha'.merge comp hb' ?_
  rw [Multiset.add_comm]
  simpa using ⟨hx, ha.nodup⟩

/-- `skew_heap_remove` of a node of the heap. -/
theorem Heaped.remove (comp : N → N → Int) (ha : Heaped s a t) (hx : x ∈ t.entries) : ∃ fuel r s',
    skewHeapRemove comp fuel s a x = .ok (r, s') ∧ Heaped s' r (t.remove comp x) := by
  obtain ⟨lx, rx, hpart, hle⟩ := ha.below.exists_part hx
  obtain ⟨-, hl, hr, hpar⟩ := id hpart
  obtain ⟨hxout, hnodup⟩ := Multiset.nodup_cons.mp (Multiset.nodup_of_le hle ha.nodup)
  obtain ⟨s₁, hrun, hbelow, hmerged⟩ := skewHeapMerge_below comp _ s (s.left x) (s.right x)
    lx rx hl hr hnodup (Nat.lt_succ_self _)
  have hentries : (lx.merge comp rx).entries = _ := SkewHeap.entries_merge ..
  have hrem : (t.remove comp x).entries.Nodup := by
    rw [SkewHeap.entries_remove hx]
    exact ha.nodup.erase x
  refine ⟨(Multiset.card lx.entries + Multiset.card rx.entries).succ, ?_⟩
  unfold skewHeapRemove
  dsimp only
  rw [hrun]
  generalize (lx.merge comp rx).root = rep at hbelow hmerged
  -- the replacement gets its parent
  have hout : ∀ n, n ∉ lx.entries + rx.entries → rep ≠ some n := by
    rintro n hn rfl
    exact hn (hentries ▸ Below.root_mem hbelow)
  have hrep : ∀ q, Below (setParent s₁ rep q) rep (lx.merge comp rx) := by
    intro q
    refine hbelow.congr (hentries ▸ hnodup) (fun n _ => by simp) fun n _ hn => ?_
    rw [setParent_parent, if_neg hn]
  by_cases hroot : a = some x
  · have hpx := ha.parent x hroot
    have htx : Below s (some x) t := hroot ▸ ha.below
    have hmerge : t.remove comp x = lx.merge comp rx := by
      rw [htx.unique hpart, SkewHeap.remove, if_pos rfl]
    rw [hpx]
    refine ⟨rep, setParent s₁ rep none, rfl, ?_, hrem, fun y hy => ?_⟩
    · rw [hmerge]
      exact hrep none
    · rw [setParent_parent, if_pos hy]
  · obtain ⟨p, hp, hpx, hchild⟩ := ha.below.exists_parent hx hroot
    rw [hpx]
    have hpout : p ∉ lx.entries + rx.entries := fun hno => hxout <|
      Multiset.mem_add.mpr ((Multiset.mem_add.mp hno).imp (fun hno => hl.child_mem hno hchild)
        fun hno => hr.child_mem hno hchild)
    have hspliced : Spliced s (replaceChild (setParent s₁ rep (some p)) p x rep) p x rep _ :=
      replaceChild_spliced hmerged hout hpout
    have hrep' : Below (replaceChild (setParent s₁ rep (some p)) p x rep) rep
        (lx.merge comp rx) := by
      refine (hrep (some p)).keep (hentries ▸ hnodup) fun n hn => ?_
      have hnp : n ≠ p := fun heq => hpout (hentries ▸ heq ▸ hn)
      unfold replaceChild
      split <;> simp [hnp]
    obtain ⟨-, hrootout, hbelow'⟩ := hspliced.below hpart hpx hrep' ha.below ha.nodup hx hroot
    refine ⟨a, replaceChild (setParent s₁ rep (some p)) p x rep, rfl, hbelow', hrem, fun y hy => ?_⟩
    rw [hspliced.parent y (hrootout y hy)]
    exact ha.parent y hy

/-! ### The operations -/

/-- The nodes form a heap with the root `a`: the pointers are consistent, the parent of the root is
NULL, and no node comes before its parent. -/
def IsSkewHeap (comp : N → N → Int) (s : HeapLinks N) (a : Option N) (nodes : Multiset N) : Prop :=
  ∃ t, Heaped s a t ∧ t.Sorted comp ∧ t.entries = nodes

/-- Each operation on a heap ends with a heap of the nodes that it should have. The comparison is
that of a total preorder on the nodes that stay or come. Where the root is removed, the order may
have changed at the root before. -/
theorem skewHeap_ops {nodes : Multiset N} (ha : IsSkewHeap comp s a nodes) :
    (∀ b nodes', IsSkewHeap comp s b nodes' → (nodes + nodes').Nodup →
      SkewHeap.TotalPreorderOn comp (nodes + nodes') →
      ∃ fuel r s', skewHeapMerge comp fuel s a b = .ok (r, s') ∧
        IsSkewHeap comp s' r (nodes + nodes')) ∧
    (∀ b, b ∉ nodes → SkewHeap.TotalPreorderOn comp (b ::ₘ nodes) →
      ∃ fuel r s', skewHeapInsert comp fuel s a b = .ok (r, s') ∧
        IsSkewHeap comp s' r (b ::ₘ nodes)) ∧
    (∀ b ∈ nodes, SkewHeap.TotalPreorderOn comp nodes →
      ∃ fuel r s', skewHeapRemove comp fuel s a b = .ok (r, s') ∧
        IsSkewHeap comp s' r (nodes.erase b)) ∧
    ∀ b comp', a = some b → SkewHeap.TotalPreorderOn comp' (nodes.erase b) →
      (∀ u ∈ nodes.erase b, ∀ v ∈ nodes.erase b, comp' u v = -1 ↔ comp u v = -1) →
      ∃ fuel r s', skewHeapRemove comp' fuel s a b = .ok (r, s') ∧
        IsSkewHeap comp' s' r (nodes.erase b) := by
  obtain ⟨t, ht, hsorted, rfl⟩ := ha
  refine ⟨?_, ?_, ?_, ?_⟩
  · rintro b nodes' ⟨u, hu, hsorted', rfl⟩ hnodup hcomp
    obtain ⟨fuel, r, s', hrun, hheap⟩ := ht.merge comp hu hnodup
    exact ⟨fuel, r, s', hrun, _, hheap, hsorted.merge hcomp hsorted', SkewHeap.entries_merge ..⟩
  · intro b hb hcomp
    obtain ⟨fuel, r, s', hrun, hheap⟩ := ht.insert comp hb
    have hcomp' : SkewHeap.TotalPreorderOn comp
        (t.entries + (SkewHeap.node .nil b .nil).entries) := by
      refine hcomp.mono fun n hn => ?_
      simpa [or_comm] using hn
    have hone : (SkewHeap.node .nil b .nil).Sorted comp := by
      simp [SkewHeap.Sorted, SkewHeap.root]
    exact ⟨fuel, r, s', hrun, _, hheap, hsorted.merge hcomp' hone, SkewHeap.entries_insert ..⟩
  · intro b hb hcomp
    obtain ⟨fuel, r, s', hrun, hheap⟩ := ht.remove comp hb
    exact ⟨fuel, r, s', hrun, _, hheap, hsorted.remove hcomp hb, SkewHeap.entries_remove hb⟩
  · intro b comp' hab hcomp' hsame
    have hroot : t.root = some b := by rw [ht.below.root, hab]
    obtain ⟨fuel, r, s', hrun, hheap⟩ := ht.remove comp' (SkewHeap.mem_of_root hroot)
    exact ⟨fuel, r, s', hrun, _, hheap, hsorted.remove_root hroot hcomp' hsame,
      SkewHeap.entries_remove (SkewHeap.mem_of_root hroot)⟩

/-- The order of numbers as a C comparison. -/
def compareNat (x y : Nat) : Int := if x < y then -1 else if x = y then 0 else 1

/-- The order of numbers is a total preorder. -/
theorem compareNat_total (nodes : Multiset Nat) : SkewHeap.TotalPreorderOn compareNat nodes := by
  have hiff : ∀ x y, compareNat x y ≠ -1 ↔ y ≤ x := by
    intro x y
    unfold compareNat
    split_ifs <;> omega
  refine ⟨fun x _ y _ => ?_, fun x _ y _ z _ => ?_⟩
  · rw [hiff, hiff]
    exact Nat.le_total y x
  · rw [hiff, hiff, hiff]
    exact Nat.le_trans

/-- Two heaps: 3 and 4 below 1, and 5 below 2. -/
def pairLinks : HeapLinks Nat where
  parent n := if n = 3 ∨ n = 4 then some 1 else if n = 5 then some 2 else none
  left n := if n = 1 then some 3 else if n = 2 then some 5 else none
  right n := if n = 1 then some 4 else none

/-- The first heap. -/
theorem pairLinks_first : IsSkewHeap compareNat pairLinks (some 1) {1, 3, 4} := by
  refine ⟨.node (.node .nil 3 .nil) 1 (.node .nil 4 .nil), ⟨?_, ?_, ?_⟩, ?_, ?_⟩
  · simp [Below, pairLinks]
    omega
  · simp [SkewHeap.entries]
  · simp [pairLinks]
  · simp [SkewHeap.Sorted, SkewHeap.root, compareNat]
    omega
  · rfl

/-- The second heap. -/
theorem pairLinks_second : IsSkewHeap compareNat pairLinks (some 2) {2, 5} := by
  refine ⟨.node (.node .nil 5 .nil) 2 .nil, ⟨?_, ?_, ?_⟩, ?_, ?_⟩
  · simp [Below, pairLinks]
  · simp [SkewHeap.entries]
  · simp [pairLinks]
  · simp [SkewHeap.Sorted, SkewHeap.root, compareNat]
  · rfl

/-- The order of numbers with 1 raised to 9. -/
def compareRaised (x y : Nat) : Int :=
  compareNat (if x = 1 then 9 else x) (if y = 1 then 9 else y)

/-- The two heaps are merged, 2 is removed from the middle, and 0 goes in. And the first heap loses its
root, which has a raised key. -/
theorem skewHeap_ops_pair :
    (∃ fuel r s, skewHeapMerge compareNat fuel pairLinks (some 1) (some 2) = .ok (r, s) ∧
      IsSkewHeap compareNat s r {1, 3, 4, 2, 5} ∧
      ∃ fuel' r' s', skewHeapRemove compareNat fuel' s r 2 = .ok (r', s') ∧
        IsSkewHeap compareNat s' r' {1, 3, 4, 5} ∧
        ∃ fuel'' r'' s'', skewHeapInsert compareNat fuel'' s' r' 0 = .ok (r'', s'') ∧
          IsSkewHeap compareNat s'' r'' {0, 1, 3, 4, 5}) ∧
    ∃ fuel r s, skewHeapRemove compareRaised fuel pairLinks (some 1) 1 = .ok (r, s) ∧
      IsSkewHeap compareRaised s r {3, 4} := by
  refine ⟨?_, ?_⟩
  · obtain ⟨fuel, r, s, hmerge, hr⟩ := (skewHeap_ops pairLinks_first).1 (some 2) _ pairLinks_second
      (by decide) (compareNat_total _)
    obtain ⟨fuel', r', s', hremove, hr'⟩ := (skewHeap_ops hr).2.2.1 2 (by decide) (compareNat_total _)
    obtain ⟨fuel'', r'', s'', hinsert, hr''⟩ := (skewHeap_ops hr').2.1 0 (by decide)
      (compareNat_total _)
    exact ⟨fuel, r, s, hmerge, hr, fuel', r', s', hremove, hr', fuel'', r'', s'', hinsert, hr''⟩
  · refine (skewHeap_ops pairLinks_first).2.2.2 1 compareRaised rfl ?_ ?_
    · constructor <;> decide
    · decide

end Ucore.Libs
