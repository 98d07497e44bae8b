import Mathlib

/-!
# `Ucore.Lib.SkewHeap`: skew heaps

A binary tree that keeps the smallest entry at its root, with `merge` as the only operation that
looks at entries. The order is a C comparison that answers -1 when its first argument comes first.
What a heap is good for does not need the comparison to be an order everywhere: `Ordered.merge` asks
that it agrees with a key on the entries of the two heaps that are merged.

* `entries_merge`, `entries_insert`, `entries_remove`: what a heap holds, as a multiset.
* `Ordered.merge`, `Ordered.insert`, `Ordered.remove`: a heap in the order of a key stays so, and
  its root is least (`Ordered.root_le`).
* `Sorted` is the order by the comparison alone, which must be a total preorder on the entries
  (`TotalPreorderOn`). `sorted_iff_ordered` turns it into the order of a key, the rank of an entry.
* `Sorted.remove_root`: for the removal of the root the order of the root does not matter.
-/

set_option autoImplicit false

namespace Ucore.Lib

/-- A skew heap, read off its links. -/
inductive SkewHeap (α : Type) where
  | nil
  | node (left : SkewHeap α) (entry : α) (right : SkewHeap α)

namespace SkewHeap

variable {α : Type}

/-- The entries, in no order. -/
def entries : SkewHeap α → Multiset α
  | nil => 0
  | node left entry right => entry ::ₘ (left.entries + right.entries)

/-- The root. -/
def root : SkewHeap α → Option α
  | nil => none
  | node _ entry _ => some entry

section
variable (comp : α → α → Int)

/-- Merge a heap with the root `entry` and the left child `left` into another one. `mergeRight`
merges its right child. -/
def mergeNode (left : SkewHeap α) (entry : α) (right : SkewHeap α)
    (mergeRight : SkewHeap α → SkewHeap α) : SkewHeap α → SkewHeap α
  | nil => node left entry right
  | node l b r =>
      if comp entry b = -1 then node (mergeRight (node l b r)) entry left
      else node (mergeNode left entry right mergeRight r) b l

/-- The smaller root stays, the rest is merged with its right child, and the children change
places. -/
def merge : SkewHeap α → SkewHeap α → SkewHeap α
  | nil, b => b
  | node left entry right, b => mergeNode comp left entry right (merge right) b

/-- Put an entry into the heap. -/
def insert (a : SkewHeap α) (entry : α) : SkewHeap α := merge comp a (node nil entry nil)

/-- Take an entry out of the heap: its children are merged in its place. -/
def remove [DecidableEq α] (entry : α) : SkewHeap α → SkewHeap α
  | nil => nil
  | node left a right =>
      if a = entry then merge comp left right
      else if entry ∈ left.entries then node (remove entry left) a right
      else node left a (remove entry right)

variable {comp}

/-- Merging nothing with a heap. -/
@[simp] theorem merge_nil_left (b : SkewHeap α) : merge comp nil b = b := rfl

/-- Merging a heap with nothing. -/
@[simp] theorem merge_nil_right (a : SkewHeap α) : merge comp a nil = a := by
  cases a <;> rfl

/-- The recursion of `merge`, as a C program has it. -/
theorem merge_node_node (left l right r : SkewHeap α) (a b : α) :
    merge comp (node left a right) (node l b r) =
      if comp a b = -1 then node (merge comp right (node l b r)) a left
      else node (merge comp (node left a right) r) b l := rfl

/-- The empty heap has no entry. -/
@[simp] theorem entries_nil : (nil : SkewHeap α).entries = 0 := rfl

/-- The entries of a heap are its root and those of its two parts. -/
@[simp] theorem entries_node (left right : SkewHeap α) (a : α) :
    (node left a right).entries = a ::ₘ (left.entries + right.entries) := rfl

/-- Nothing is lost and nothing is added. -/
@[simp] theorem entries_merge : ∀ a b : SkewHeap α,
    (merge comp a b).entries = a.entries + b.entries := by
  intro a
  induction a with
  | nil =>
      intro b
      simp
  | node left x right _ ihr =>
      intro b
      induction b with
      | nil => simp
      | node l y r _ ihr' =>
          rw [merge_node_node]
          split
          · rw [entries_node, ihr, entries_node left, Multiset.cons_add, Multiset.add_comm _ left.entries,
              Multiset.add_assoc]
          · rw [entries_node, ihr', entries_node l, Multiset.add_cons, Multiset.add_assoc,
              Multiset.add_comm r.entries]

/-- An insertion adds one entry. -/
@[simp] theorem entries_insert (a : SkewHeap α) (x : α) :
    (insert comp a x).entries = x ::ₘ a.entries := by
  rw [insert, entries_merge, Multiset.add_comm]
  rfl

/-- The root is an entry. -/
theorem mem_of_root {a : SkewHeap α} {x : α} (h : a.root = some x) : x ∈ a.entries := by
  cases a with
  | nil => cases h
  | node left y right =>
      cases h
      exact Multiset.mem_cons_self ..

/-- The root of a merged heap is one of the two roots. -/
theorem root_merge {a b : SkewHeap α} {x : α} (h : (merge comp a b).root = some x) :
    a.root = some x ∨ b.root = some x := by
  cases a with
  | nil => exact Or.inr h
  | node left y right =>
      cases b with
      | nil => exact Or.inl h
      | node l z r =>
          rw [merge_node_node] at h
          split at h
          · exact Or.inl h
          · exact Or.inr h

/-- A heap without a root is empty. -/
theorem root_eq_none {a : SkewHeap α} : a.root = none ↔ a.entries = 0 := by
  cases a <;> simp [root]

/-- Removing the root leaves the other entries. -/
theorem entries_remove_root [DecidableEq α] {a : SkewHeap α} {x : α} (h : a.root = some x) :
    a.entries = x ::ₘ (remove comp x a).entries := by
  cases a with
  | nil => cases h
  | node left y right =>
      cases h
      rw [remove, if_pos rfl, entries_merge, entries_node]

/-- Removing an entry takes it out once. -/
@[simp] theorem entries_remove [DecidableEq α] {x : α} : ∀ {a : SkewHeap α}, x ∈ a.entries →
    (remove comp x a).entries = a.entries.erase x := by
  intro a
  induction a with
  | nil => exact fun h => absurd h (Multiset.notMem_zero x)
  | node left y right ihl ihr =>
      intro h
      rw [remove]
      by_cases hyx : y = x
      · rw [if_pos hyx, entries_merge, entries_node, hyx, Multiset.erase_cons_head]
      · rw [if_neg hyx, entries_node, Multiset.erase_cons_tail _ hyx]
        have hbelow := (Multiset.mem_cons.mp h).resolve_left (Ne.symm hyx)
        by_cases hl : x ∈ left.entries
        · rw [if_pos hl, entries_node, ihl hl, Multiset.erase_add_left_pos _ hl]
        · have hr := (Multiset.mem_add.mp hbelow).resolve_left hl
          rw [if_neg hl, entries_node, ihr hr, Multiset.erase_add_right_neg _ hl]

end

/-! ### Order -/

section
variable {β : Type} [LinearOrder β] {key : α → β} {comp : α → α → Int}

/-- Every entry has the smallest key of the heap below it. -/
def Ordered (key : α → β) : SkewHeap α → Prop
  | nil => True
  | node left entry right =>
      (∀ x ∈ left.entries + right.entries, key entry ≤ key x) ∧ left.Ordered key ∧
        right.Ordered key

/-- The root has the smallest key. -/
theorem Ordered.root_le {a : SkewHeap α} (h : a.Ordered key) {x y : α} (hx : a.root = some x)
    (hy : y ∈ a.entries) : key x ≤ key y := by
  cases a with
  | nil => cases hx
  | node left z right =>
      cases hx
      rcases Multiset.mem_cons.mp hy with rfl | hy
      · exact le_refl _
      · exact h.1 y hy

/-- The order depends on the keys of the entries only. -/
theorem Ordered.congr {key' : α → β} : ∀ {a : SkewHeap α}, a.Ordered key →
    (∀ x ∈ a.entries, key' x = key x) → a.Ordered key' := by
  intro a
  induction a with
  | nil => exact fun _ _ => trivial
  | node left x right ihl ihr =>
      intro h hsame
      obtain ⟨hroot, hl, hr⟩ := h
      refine ⟨?_, ihl hl fun y hy => hsame y ?_, ihr hr fun y hy => hsame y ?_⟩
      · intro y hy
        rw [hsame x (by simp), hsame y (Multiset.mem_cons_of_mem hy)]
        exact hroot y hy
      · exact Multiset.mem_cons_of_mem (Multiset.mem_add.mpr (Or.inl hy))
      · exact Multiset.mem_cons_of_mem (Multiset.mem_add.mpr (Or.inr hy))

/-- Merging two heaps keeps the order, when the comparison agrees with the keys on the entries of
the two. -/
theorem Ordered.merge : ∀ {a b : SkewHeap α}, a.Ordered key → b.Ordered key →
    (∀ x ∈ a.entries, ∀ y ∈ b.entries, comp x y = -1 ↔ key x < key y) →
    (merge comp a b).Ordered key := by
  intro a
  induction a with
  | nil => exact fun _ hb _ => hb
  | node left x right _ ihr =>
      intro b
      induction b with
      | nil => exact fun ha _ _ => ha
      | node l y r _ ihr' =>
          intro ha hb hcomp
          have hxy := hcomp x (by simp) y (by simp)
          rw [merge_node_node]
          split
          · -- `x` is the root, and what has been in front of `y` is behind `x`
            rename_i hlt
            have hkey := hxy.mp hlt
            refine ⟨?_, ihr ha.2.2 hb fun u hu v hv => hcomp u ?_ v hv, ha.2.1⟩
            · intro z hz
              rw [entries_merge, Multiset.mem_add, Multiset.mem_add] at hz
              rcases hz with (hz | hz) | hz
              · exact ha.1 z (Multiset.mem_add.mpr (Or.inr hz))
              · rcases Multiset.mem_cons.mp hz with rfl | hz
                · exact hkey.le
                · exact hkey.le.trans (hb.1 z hz)
              · exact ha.1 z (Multiset.mem_add.mpr (Or.inl hz))
            · exact Multiset.mem_cons_of_mem (Multiset.mem_add.mpr (Or.inr hu))
          · rename_i hlt
            have hkey : key y ≤ key x := not_lt.mp fun h => hlt (hxy.mpr h)
            refine ⟨?_, ihr' ha hb.2.2 fun u hu v hv => hcomp u hu v ?_, hb.2.1⟩
            · intro z hz
              rw [entries_merge, Multiset.mem_add, Multiset.mem_add] at hz
              rcases hz with (hz | hz) | hz
              · rcases Multiset.mem_cons.mp hz with rfl | hz
                · exact hkey
                · exact hkey.trans (ha.1 z hz)
              · exact hb.1 z (Multiset.mem_add.mpr (Or.inr hz))
              · exact hb.1 z (Multiset.mem_add.mpr (Or.inl hz))
            · exact Multiset.mem_cons_of_mem (Multiset.mem_add.mpr (Or.inr hv))

/-- An insertion keeps the order of the keys. -/
theorem Ordered.insert {a : SkewHeap α} {x : α} (h : a.Ordered key)
    (hcomp : ∀ y ∈ a.entries, comp y x = -1 ↔ key y < key x) : (insert comp a x).Ordered key := by
  refine h.merge ⟨by simp, trivial, trivial⟩ ?_
  intro y hy z hz
  obtain rfl : z = x := by simpa using hz
  exact hcomp y hy

/-- Removing the root keeps the order, when the comparison agrees with the keys on the other
entries. -/
theorem Ordered.remove_root [DecidableEq α] {a : SkewHeap α} {x : α} (h : a.Ordered key)
    (hx : a.root = some x)
    (hcomp : ∀ y ∈ (remove comp x a).entries, ∀ z ∈ (remove comp x a).entries,
      comp y z = -1 ↔ key y < key z) : (remove comp x a).Ordered key := by
  cases a with
  | nil => cases hx
  | node left y right =>
      cases hx
      rw [remove, if_pos rfl] at hcomp ⊢
      refine h.2.1.merge h.2.2 fun u hu v hv => hcomp u ?_ v ?_
      · exact entries_merge left right ▸ Multiset.mem_add.mpr (Or.inl hu)
      · exact entries_merge left right ▸ Multiset.mem_add.mpr (Or.inr hv)

/-- Removing any entry keeps the order, when the comparison agrees with the keys. -/
theorem Ordered.remove [DecidableEq α] {x : α} : ∀ {a : SkewHeap α}, a.Ordered key →
    x ∈ a.entries → (∀ y ∈ a.entries, ∀ z ∈ a.entries, comp y z = -1 ↔ key y < key z) →
    (remove comp x a).Ordered key := by
  intro a
  induction a with
  | nil => exact fun _ h _ => absurd h (Multiset.notMem_zero x)
  | node left y right ihl ihr =>
      intro h hx hcomp
      have hleft : ∀ z ∈ left.entries, z ∈ (node left y right).entries := fun z hz =>
        Multiset.mem_cons_of_mem (Multiset.mem_add.mpr (Or.inl hz))
      have hright : ∀ z ∈ right.entries, z ∈ (node left y right).entries := fun z hz =>
        Multiset.mem_cons_of_mem (Multiset.mem_add.mpr (Or.inr hz))
      rw [SkewHeap.remove]
      by_cases hyx : y = x
      · rw [if_pos hyx]
        exact h.2.1.merge h.2.2 fun u hu v hv => hcomp u (hleft u hu) v (hright v hv)
      · rw [if_neg hyx]
        have hbelow := (Multiset.mem_cons.mp hx).resolve_left (Ne.symm hyx)
        by_cases hl : x ∈ left.entries
        · rw [if_pos hl]
          refine ⟨fun z hz => h.1 z ?_, ihl h.2.1 hl fun u hu v hv => hcomp u (hleft u hu) v
            (hleft v hv), h.2.2⟩
          rw [entries_remove hl] at hz
          exact Multiset.mem_add.mpr ((Multiset.mem_add.mp hz).imp_left Multiset.mem_of_mem_erase)
        · have hr := (Multiset.mem_add.mp hbelow).resolve_left hl
          rw [if_neg hl]
          refine ⟨fun z hz => h.1 z ?_, h.2.1, ihr h.2.2 hr fun u hu v hv => hcomp u (hright u hu) v
            (hright v hv)⟩
          rw [entries_remove hr] at hz
          exact Multiset.mem_add.mpr ((Multiset.mem_add.mp hz).imp_right Multiset.mem_of_mem_erase)

end

/-! ### A comparison alone -/

section
variable {comp : α → α → Int}

/-- On these entries the comparison is that of a total preorder: no answer -1 means that the second
argument is not behind the first one. -/
structure TotalPreorderOn (comp : α → α → Int) (s : Multiset α) : Prop where
  total : ∀ x ∈ s, ∀ y ∈ s, comp x y ≠ -1 ∨ comp y x ≠ -1
  trans : ∀ x ∈ s, ∀ y ∈ s, ∀ z ∈ s, comp y x ≠ -1 → comp z y ≠ -1 → comp z x ≠ -1

/-- A total preorder is one on fewer entries. -/
theorem TotalPreorderOn.mono {s t : Multiset α} (h : TotalPreorderOn comp t)
    (hst : ∀ x ∈ s, x ∈ t) : TotalPreorderOn comp s where
  total x hx y hy := h.total x (hst x hx) y (hst y hy)
  trans x hx y hy z hz := h.trans x (hst x hx) y (hst y hy) z (hst z hz)

/-- The key of an entry: how many of the entries come first. -/
def rank (comp : α → α → Int) (s : Multiset α) (x : α) : Nat :=
  Multiset.card (s.filter fun y => comp y x = -1)

/-- The comparison agrees with the ranks. -/
theorem TotalPreorderOn.rank_lt {s : Multiset α} (h : TotalPreorderOn comp s) {x y : α}
    (hx : x ∈ s) (hy : y ∈ s) : comp x y = -1 ↔ rank comp s x < rank comp s y := by
  -- what comes before one entry comes before each that is not before it
  have hle : ∀ u ∈ s, ∀ v ∈ s, comp v u ≠ -1 →
      (s.filter fun z => comp z u = -1) ≤ s.filter fun z => comp z v = -1 := by
    intro u hu v hv huv
    have hfilter : (s.filter fun z => comp z u = -1) =
        (s.filter fun z => comp z v = -1).filter fun z => comp z u = -1 := by
      rw [Multiset.filter_filter]
      refine Multiset.filter_congr fun z hz => ⟨fun hzu => ⟨hzu, ?_⟩, fun hboth => hboth.1⟩
      by_contra hzv
      exact h.trans u hu v hv z hz huv hzv hzu
    rw [hfilter]
    exact Multiset.filter_le ..
  constructor
  · intro hxy
    have hyx : comp y x ≠ -1 := (h.total x hx y hy).resolve_left (not_not.mpr hxy)
    refine Multiset.card_lt_card (lt_of_le_of_ne (hle x hx y hy hyx) fun heq => ?_)
    have hmem : x ∈ s.filter fun z => comp z x = -1 := by
      rw [heq]
      exact Multiset.mem_filter.mpr ⟨hx, hxy⟩
    have hself := (Multiset.mem_filter.mp hmem).2
    exact (h.total x hx x hx).elim (fun hne => hne hself) fun hne => hne hself
  · intro hlt
    by_contra hxy
    exact absurd (Multiset.card_le_card (hle y hy x hx hxy)) (Nat.not_le.mpr hlt)

/-- No entry comes before its parent. -/
def Sorted (comp : α → α → Int) : SkewHeap α → Prop
  | nil => True
  | node left entry right =>
      (∀ x, left.root = some x ∨ right.root = some x → comp x entry ≠ -1) ∧ left.Sorted comp ∧
        right.Sorted comp

/-- A heap is sorted for another comparison that puts no entry first that was not. -/
theorem Sorted.congr {comp' : α → α → Int} : ∀ {a : SkewHeap α}, a.Sorted comp →
    (∀ x ∈ a.entries, ∀ y ∈ a.entries, comp' x y = -1 → comp x y = -1) → a.Sorted comp' := by
  intro a
  induction a with
  | nil => exact fun _ _ => trivial
  | node left y right ihl ihr =>
      intro h hsame
      have hleft : ∀ z ∈ left.entries, z ∈ (node left y right).entries := fun z hz =>
        Multiset.mem_cons_of_mem (Multiset.mem_add.mpr (Or.inl hz))
      have hright : ∀ z ∈ right.entries, z ∈ (node left y right).entries := fun z hz =>
        Multiset.mem_cons_of_mem (Multiset.mem_add.mpr (Or.inr hz))
      refine ⟨fun x hx hbefore => ?_, ihl h.2.1 fun u hu v hv => hsame u (hleft u hu) v (hleft v hv),
        ihr h.2.2 fun u hu v hv => hsame u (hright u hu) v (hright v hv)⟩
      have hmem : x ∈ (node left y right).entries :=
        hx.elim (fun hl => hleft x (mem_of_root hl)) fun hr => hright x (mem_of_root hr)
      exact h.1 x hx (hsame x hmem y (Multiset.mem_cons_self ..) hbefore)

/-- The order between parents and children is the order by any key that the comparison agrees
with. -/
theorem sorted_iff_ordered {β : Type} [LinearOrder β] {key : α → β} : ∀ {a : SkewHeap α},
    (∀ x ∈ a.entries, ∀ y ∈ a.entries, comp x y = -1 ↔ key x < key y) →
    (a.Sorted comp ↔ a.Ordered key) := by
  intro a
  induction a with
  | nil => exact fun _ => Iff.rfl
  | node left y right ihl ihr =>
      intro hcomp
      have hy : y ∈ (node left y right).entries := Multiset.mem_cons_self ..
      have hleft : ∀ z ∈ left.entries, z ∈ (node left y right).entries := fun z hz =>
        Multiset.mem_cons_of_mem (Multiset.mem_add.mpr (Or.inl hz))
      have hright : ∀ z ∈ right.entries, z ∈ (node left y right).entries := fun z hz =>
        Multiset.mem_cons_of_mem (Multiset.mem_add.mpr (Or.inr hz))
      have hl := ihl fun u hu v hv => hcomp u (hleft u hu) v (hleft v hv)
      have hr := ihr fun u hu v hv => hcomp u (hright u hu) v (hright v hv)
      have hkey : ∀ x ∈ (node left y right).entries, comp x y ≠ -1 ↔ key y ≤ key x := fun x hx =>
        (not_congr (hcomp x hx y hy)).trans not_lt
      constructor
      · rintro ⟨hroots, hsl, hsr⟩
        have hol := hl.mp hsl
        have hor := hr.mp hsr
        refine ⟨fun z hz => ?_, hol, hor⟩
        -- an entry is behind the root of its side, which is behind `y`
        rcases Multiset.mem_add.mp hz with hz | hz
        · cases hroot : left.root with
          | none => exact absurd hz (root_eq_none.mp hroot ▸ Multiset.notMem_zero z)
          | some x =>
              have hx := (hkey x (hleft x (mem_of_root hroot))).mp (hroots x (Or.inl hroot))
              exact hx.trans (hol.root_le hroot hz)
        · cases hroot : right.root with
          | none => exact absurd hz (root_eq_none.mp hroot ▸ Multiset.notMem_zero z)
          | some x =>
              have hx := (hkey x (hright x (mem_of_root hroot))).mp (hroots x (Or.inr hroot))
              exact hx.trans (hor.root_le hroot hz)
      · rintro ⟨hbelow, hol, hor⟩
        refine ⟨fun x hx => ?_, hl.mpr hol, hr.mpr hor⟩
        rcases hx with hx | hx
        · exact (hkey x (hleft x (mem_of_root hx))).mpr
            (hbelow x (Multiset.mem_add.mpr (Or.inl (mem_of_root hx))))
        · exact (hkey x (hright x (mem_of_root hx))).mpr
            (hbelow x (Multiset.mem_add.mpr (Or.inr (mem_of_root hx))))

/-- Merging two heaps under a total preorder. -/
theorem Sorted.merge {a b : SkewHeap α} (hcomp : TotalPreorderOn comp (a.entries + b.entries))
    (ha : a.Sorted comp) (hb : b.Sorted comp) : (merge comp a b).Sorted comp := by
  have hleft : ∀ x ∈ a.entries, x ∈ a.entries + b.entries := fun x hx =>
    Multiset.mem_add.mpr (Or.inl hx)
  have hright : ∀ x ∈ b.entries, x ∈ a.entries + b.entries := fun x hx =>
    Multiset.mem_add.mpr (Or.inr hx)
  have hkeys : ∀ x ∈ a.entries + b.entries, ∀ y ∈ a.entries + b.entries, comp x y = -1 ↔
      rank comp (a.entries + b.entries) x < rank comp (a.entries + b.entries) y :=
    fun x hx y hy => hcomp.rank_lt hx hy
  have hoa := (sorted_iff_ordered fun x hx y hy => hkeys x (hleft x hx) y (hleft y hy)).mp ha
  have hob := (sorted_iff_ordered fun x hx y hy => hkeys x (hright x hx) y (hright y hy)).mp hb
  refine (sorted_iff_ordered fun x hx y hy => ?_).mpr
    (hoa.merge hob fun x hx y hy => hkeys x (hleft x hx) y (hright y hy))
  rw [entries_merge] at hx hy
  exact hkeys x hx y hy

/-- Removing an entry under a total preorder. -/
theorem Sorted.remove [DecidableEq α] {a : SkewHeap α} {x : α}
    (hcomp : TotalPreorderOn comp a.entries) (ha : a.Sorted comp) (hx : x ∈ a.entries) :
    (remove comp x a).Sorted comp := by
  have hkeys : ∀ u ∈ a.entries, ∀ v ∈ a.entries, comp u v = -1 ↔
      rank comp a.entries u < rank comp a.entries v := fun u hu v hv => hcomp.rank_lt hu hv
  refine (sorted_iff_ordered fun u hu v hv => ?_).mpr
    (((sorted_iff_ordered hkeys).mp ha).remove hx hkeys)
  rw [entries_remove hx] at hu hv
  exact hkeys u (Multiset.mem_of_mem_erase hu) v (Multiset.mem_of_mem_erase hv)

/-- Removing the root, whose place in the order does not matter. -/
theorem Sorted.remove_root [DecidableEq α] {a : SkewHeap α} {x : α} {comp' : α → α → Int}
    (ha : a.Sorted comp) (hx : a.root = some x)
    (hcomp' : TotalPreorderOn comp' (a.entries.erase x))
    (hsame : ∀ u ∈ a.entries.erase x, ∀ v ∈ a.entries.erase x, comp' u v = -1 ↔ comp u v = -1) :
    (SkewHeap.remove comp' x a).Sorted comp' := by
  cases a with
  | nil => cases hx
  | node left y right =>
      obtain rfl : y = x := Option.some.inj hx
      rw [entries_node, Multiset.erase_cons_head] at hcomp' hsame
      have hleft : ∀ z ∈ left.entries, z ∈ left.entries + right.entries := fun z hz =>
        Multiset.mem_add.mpr (Or.inl hz)
      have hright : ∀ z ∈ right.entries, z ∈ left.entries + right.entries := fun z hz =>
        Multiset.mem_add.mpr (Or.inr hz)
      rw [SkewHeap.remove, if_pos rfl]
      refine Sorted.merge hcomp' (ha.2.1.congr fun u hu v hv => ?_)
        (ha.2.2.congr fun u hu v hv => ?_)
      · exact (hsame u (hleft u hu) v (hleft v hv)).mp
      · exact (hsame u (hright u hu) v (hright v hv)).mp

end

end SkewHeap

end Ucore.Lib
