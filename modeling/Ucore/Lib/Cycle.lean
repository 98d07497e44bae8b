import Mathlib.Data.List.Nodup
import Mathlib.Logic.Function.Iterate

/-!
# `Ucore.Lib.Cycle`: circular lists with one link

`Path next a xs b` says that the links `next` lead from `a` through exactly the nodes `xs` to `b`,
and `Cyclic next l` that they lead through `l` and back to its first node. Which node is the first
does not matter (`cyclic_append_comm`). A change of the links away from a path keeps it, and its
start can be given to another node (`Path.move`): every insertion and removal is that.

The lemmas about an element of the ring need no place for it: its successor is in the ring
(`Cyclic.next_mem`), no two elements have the same one (`Cyclic.next_inj`), and from each every
other one is reached (`Cyclic.reach`), which is what makes a walk around the ring end.
-/

set_option autoImplicit false

namespace Ucore.Lib

variable {α : Type} {next next' : α → α}

/-- The links lead from `a` through exactly the nodes `xs` to `b`. -/
def Path (next : α → α) : α → List α → α → Prop
  | a, [], b => next a = b
  | a, x :: xs, b => next a = x ∧ Path next x xs b

/-- The links lead through the list and back to its first node. -/
def Cyclic (next : α → α) : List α → Prop
  | [] => True
  | h :: t => Path next h t h

/-- A path over a concatenation splits at the element in the middle. -/
theorem path_append : ∀ (xs : List α) (a b c : α) (ys : List α),
    Path next a (xs ++ b :: ys) c ↔ Path next a xs b ∧ Path next b ys c := by
  intro xs
  induction xs with
  | nil => intro a b c ys; rfl
  | cons x xs ih =>
      intro a b c ys
      simp only [List.cons_append, Path, ih, and_assoc]

/-- The first node behind the start. -/
theorem Path.next_eq {a b : α} : ∀ {xs : List α}, Path next a xs b → next a = xs.headD b
  | [], h => h
  | _ :: _, h => h.1

/-- Another node takes the place of the start, and the links of the others are the same. -/
theorem Path.move {a a' b : α} {xs : List α} (h : Path next a xs b) (ha : next' a' = next a)
    (hxs : ∀ x ∈ xs, next' x = next x) : Path next' a' xs b := by
  induction xs generalizing a a' with
  | nil => exact ha.trans h
  | cons x xs ih =>
      refine ⟨ha.trans h.1, ih h.2 (hxs x List.mem_cons_self) ?_⟩
      intro y hy
      exact hxs y (List.mem_cons_of_mem x hy)

/-- The links of a path, in order. -/
theorem Path.map {a b : α} : ∀ {xs : List α}, Path next a xs b → (a :: xs).map next = xs ++ [b] := by
  intro xs
  induction xs generalizing a with
  | nil =>
      intro h
      exact congrArg (fun c => [c]) (show next a = b from h)
  | cons x xs ih =>
      intro h
      rw [List.map_cons, h.1, ih h.2]
      rfl

/-- A ring may be read from any of its elements. -/
theorem cyclic_append_comm {xs ys : List α} (h : Cyclic next (xs ++ ys)) :
    Cyclic next (ys ++ xs) := by
  cases xs with
  | nil => rwa [List.append_nil]
  | cons x xs =>
      cases ys with
      | nil => rwa [List.append_nil] at h
      | cons y ys =>
          obtain ⟨hxs, hys⟩ := (path_append xs x y x ys).mp h
          exact (path_append ys y x y xs).mpr ⟨hys, hxs⟩

/-- A cycle, from one of its nodes on. -/
theorem Cyclic.path {xs ys : List α} {a : α} (h : Cyclic next (xs ++ a :: ys)) :
    Path next a (ys ++ xs) a := by
  have hrot : Cyclic next ((a :: ys) ++ xs) := cyclic_append_comm h
  exact hrot

/-- A path from an element back to itself is a ring. -/
theorem Path.cyclic {xs ys : List α} {a : α} (h : Path next a (ys ++ xs) a) :
    Cyclic next (xs ++ a :: ys) := by
  have hrot : Cyclic next ((a :: ys) ++ xs) := h
  exact cyclic_append_comm hrot

/-- A ring depends on the successors of its elements only. -/
theorem Cyclic.congr {l : List α} (h : Cyclic next l) (hl : ∀ x ∈ l, next' x = next x) :
    Cyclic next' l := by
  cases l with
  | nil => trivial
  | cons a l =>
      have hpath : Path next a l a := h
      exact hpath.move (hl a List.mem_cons_self) fun x hx => hl x (List.mem_cons_of_mem a hx)

/-- The link of a node leads to a node. -/
theorem Cyclic.next_mem {l : List α} (h : Cyclic next l) {a : α} (ha : a ∈ l) : next a ∈ l := by
  obtain ⟨xs, ys, rfl⟩ := List.append_of_mem ha
  rw [h.path.next_eq]
  cases hzs : ys ++ xs with
  | nil => simp
  | cons z zs =>
      have hz : z ∈ ys ++ xs := by rw [hzs]; exact List.mem_cons_self
      rw [List.headD_cons]
      simp only [List.mem_append, List.mem_cons] at hz ⊢
      tauto

/-- No two nodes have the same successor. -/
theorem Cyclic.next_inj {l : List α} (h : Cyclic next l) (hl : l.Nodup) {a b : α} (ha : a ∈ l)
    (hb : b ∈ l) (hab : next a = next b) : a = b := by
  cases l with
  | nil => cases ha
  | cons c l =>
      have hpath : Path next c l c := h
      have hmap : ((c :: l).map next).Nodup := by
        rw [hpath.map]
        exact (List.perm_append_singleton c l).nodup_iff.mpr hl
      exact List.inj_on_of_nodup_map hmap ha hb hab

/-- Every node is reached from every other one. -/
theorem Cyclic.reach {l : List α} (h : Cyclic next l) {a b : α} (ha : a ∈ l) (hb : b ∈ l) :
    ∃ i, next^[i] a = b := by
  obtain ⟨xs, ys, rfl⟩ := List.append_of_mem ha
  have hpath := h.path
  have key : ∀ (zs : List α) (c : α), Path next c zs a → ∀ d ∈ zs, ∃ i, next^[i] c = d := by
    intro zs
    induction zs with
    | nil => intro c _ d hd; cases hd
    | cons z zs ih =>
        intro c hc d hd
        rcases List.mem_cons.mp hd with rfl | hd
        · exact ⟨1, hc.1⟩
        · obtain ⟨i, hi⟩ := ih z hc.2 d hd
          refine ⟨i + 1, ?_⟩
          rw [Function.iterate_succ_apply, hc.1]
          exact hi
  by_cases hba : b = a
  · exact ⟨0, hba.symm⟩
  · apply key _ _ hpath
    simp only [List.mem_append, List.mem_cons] at hb ⊢
    tauto

/-- The nodes that are reached from a node of a cycle are those of the cycle. -/
theorem Cyclic.iterate_mem {l : List α} (h : Cyclic next l) {a : α} (ha : a ∈ l) (i : Nat) :
    next^[i] a ∈ l := by
  induction i with
  | zero => exact ha
  | succ i ih =>
      rw [Function.iterate_succ_apply']
      exact h.next_mem ih

end Ucore.Lib
