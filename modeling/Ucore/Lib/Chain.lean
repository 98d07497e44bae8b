import Mathlib.Data.List.Nodup
import Mathlib.Logic.Function.Basic

/-!
# `Ucore.Lib.Chain`: doubly linked lists that end in NULL

The head of such a list is a pointer that somebody keeps, the first node has no node in front and
the last one none behind. `Chain prev next y c xs` says that `c` is the first of the nodes `xs` and
that `y` is in front of it. A node is put in front (`Chain.push`), and one is taken out wherever it
stands (`Chain.remove`), by the pointer changes that a C program makes.

`setField f n v` is the assignment to a field of the node that `n` points to, and nothing when `n`
is NULL, as behind an `if (n != NULL)`. With it the changes of a removal are two assignments,
whether the node has neighbours or not. `Chain.unique` says that the pointers have one list only, so
the order of a list that a program keeps is determined.
-/

set_option autoImplicit false

namespace Ucore.Lib

variable {α : Type} {prev next prev' next' : α → Option α}

/-- The list that starts at `c` behind the node `y` has exactly the nodes `xs`. -/
def Chain (prev next : α → Option α) : Option α → Option α → List α → Prop
  | _, c, [] => c = none
  | y, c, p :: ps => c = some p ∧ prev p = y ∧ Chain prev next (some p) (next p) ps

/-- The first node. -/
theorem Chain.head_eq {y c : Option α} : ∀ {xs : List α}, Chain prev next y c xs → c = xs.head?
  | [], h => h
  | _ :: _, h => h.1

/-- A chain depends on the links of its nodes. -/
theorem Chain.congr : ∀ {xs : List α} {y c : Option α}, Chain prev next y c xs →
    (∀ x ∈ xs, prev' x = prev x ∧ next' x = next x) → Chain prev' next' y c xs := by
  intro xs
  induction xs with
  | nil => intro y c h _; exact h
  | cons p ps ih =>
      intro y c h hsame
      obtain ⟨hp, hn⟩ := hsame p List.mem_cons_self
      refine ⟨h.1, hp.trans h.2.1, ?_⟩
      rw [hn]
      exact ih h.2.2 fun x hx => hsame x (List.mem_cons_of_mem p hx)

/-- The same list, behind another node. -/
theorem Chain.behind {y y' c : Option α} {p : α} {ps : List α}
    (h : Chain prev next y c (p :: ps)) (hp : prev' p = y') (hn : next' p = next p)
    (hps : ∀ x ∈ ps, prev' x = prev x ∧ next' x = next x) :
    Chain prev' next' y' c (p :: ps) := by
  refine ⟨h.1, hp, ?_⟩
  rw [hn]
  exact h.2.2.congr hps

/-- The links have one chain only. -/
theorem Chain.unique : ∀ {xs ys : List α} {y y' c : Option α}, Chain prev next y c xs →
    Chain prev next y' c ys → xs = ys := by
  intro xs
  induction xs with
  | nil =>
      intro ys y y' c h h'
      cases ys with
      | nil => rfl
      | cons q qs => cases h.symm.trans h'.1
  | cons p ps ih =>
      intro ys y y' c h h'
      cases ys with
      | nil => cases h.1.symm.trans h'
      | cons q qs =>
          obtain rfl : p = q := Option.some.inj (h.1.symm.trans h'.1)
          rw [ih h.2.2 h'.2.2]

/-- The node in front of a node of the list is the one that stands there. -/
theorem Chain.prev_mem {p : α} {zs : List α} : ∀ {ys : List α} {y c : Option α},
    Chain prev next y c (ys ++ p :: zs) → prev p = (ys.getLast?).or y := by
  intro ys
  induction ys with
  | nil => intro y c h; exact h.2.1
  | cons a ys ih =>
      intro y c h
      rw [ih h.2.2]
      cases ys with
      | nil => rfl
      | cons b ys =>
          rw [List.getLast?_cons_cons]
          cases hl : (b :: ys).getLast? with
          | none => simp at hl
          | some l => rfl

/-- The successor of a node inside a chain. -/
theorem Chain.next_mem {p : α} {zs : List α} : ∀ {ys : List α} {y c : Option α},
    Chain prev next y c (ys ++ p :: zs) → next p = zs.head? := by
  intro ys
  induction ys with
  | nil => intro y c h; exact h.2.2.head_eq
  | cons a ys ih => intro y c h; exact ih h.2.2

variable [DecidableEq α]

/-- Change the field of a node, when there is a node. -/
def setField (f : α → Option α) (n : Option α) (v : Option α) : α → Option α :=
  match n with
  | none => f
  | some n => Function.update f n v

/-- A write through NULL, which the code skips. -/
@[simp] theorem setField_none (f : α → Option α) (v : Option α) : setField f none v = f := rfl

/-- The field that was written. -/
theorem setField_self (f : α → Option α) (n : α) (v : Option α) : setField f (some n) v n = v :=
  Function.update_self ..

/-- The other fields are as they were. -/
theorem setField_of_ne (f : α → Option α) {n : Option α} {x : α} (v : Option α)
    (h : n ≠ some x) : setField f n v x = f x := by
  cases n with
  | none => rfl
  | some n => exact Function.update_of_ne (fun e => h (by rw [e])) ..

/-- A node is put in front of the list. -/
theorem Chain.push {c : Option α} {p : α} {ps : List α} (h : Chain prev next none c ps)
    (hp : p ∉ ps) (hnodup : ps.Nodup) :
    Chain (setField (Function.update prev p none) c (some p)) (Function.update next p c) none
      (some p) (p :: ps) := by
  have hc : c ≠ some p := by
    rw [h.head_eq]
    intro hhead
    exact hp (List.mem_of_mem_head? hhead)
  refine ⟨rfl, ?_, ?_⟩
  · rw [setField_of_ne _ _ hc, Function.update_self]
  · rw [Function.update_self]
    cases ps with
    | nil => exact h
    | cons q qs =>
        obtain rfl : c = some q := h.1
        have hqp : q ≠ p := fun e => hp (by rw [e]; exact List.mem_cons_self)
        refine h.behind (setField_self ..) (Function.update_of_ne hqp ..) ?_
        intro x hx
        have hxp : x ≠ p := fun e => hp (by rw [← e]; exact List.mem_cons_of_mem q hx)
        have hxq : q ≠ x := fun e => (List.nodup_cons.mp hnodup).1 (by rw [e]; exact hx)
        rw [setField_of_ne _ _ (by simpa using hxq), Function.update_of_ne hxp,
          Function.update_of_ne hxp]
        exact ⟨rfl, rfl⟩

/-- A node is taken out: the node behind it and the one in front of it, or the head of the
list, get to know each other. -/
theorem Chain.remove {p : α} {zs : List α} : ∀ {ys : List α} {y c : Option α},
    Chain prev next y c (ys ++ p :: zs) → (ys ++ p :: zs).Nodup →
    (∀ a, y = some a → a ∉ ys ++ p :: zs) →
    Chain (setField prev (next p) (prev p)) (setField next (prev p) (next p)) y
      (if ys = [] then next p else c) (ys ++ zs) := by
  intro ys
  induction ys with
  | nil =>
      intro y c h hnodup hy
      obtain ⟨-, hprev, hrest⟩ := h
      rw [if_pos rfl, List.nil_append]
      -- The first node goes: the head and the node behind get to know each other.
      cases zs with
      | nil => exact hrest
      | cons o os =>
          have ho : next p = some o := hrest.1
          have hyo : prev p ≠ some o := by
            rw [hprev]
            intro e
            exact hy o e (by simp)
          obtain ⟨-, hnodup⟩ := List.nodup_cons.mp hnodup
          refine hrest.behind ?_ (setField_of_ne _ _ hyo) ?_
          · rw [ho, setField_self, hprev]
          · intro x hx
            have hxo : next p ≠ some x := by
              rw [ho]
              intro e
              obtain rfl : o = x := Option.some.inj e
              exact (List.nodup_cons.mp hnodup).1 hx
            have hxy : prev p ≠ some x := by
              rw [hprev]
              intro e
              exact hy x e (by simp [hx])
            exact ⟨setField_of_ne _ _ hxo, setField_of_ne _ _ hxy⟩
  | cons a ys ih =>
      intro y c h hnodup hy
      obtain ⟨hc, hprev, hrest⟩ := h
      have hnodup' : (a :: (ys ++ p :: zs)).Nodup := hnodup
      obtain ⟨ha, hnodup'⟩ := List.nodup_cons.mp hnodup'
      have hback := ih hrest hnodup' (by
        intro b hb
        obtain rfl : a = b := Option.some.inj hb
        exact ha)
      have hnext : next p ≠ some a := by
        rw [hrest.next_mem]
        intro e
        exact ha (List.mem_append_right _ (List.mem_cons_of_mem p (List.mem_of_mem_head? e)))
      rw [if_neg (by simp)]
      refine ⟨hc, (setField_of_ne _ _ hnext).trans hprev, ?_⟩
      have hpp := hrest.prev_mem
      -- The node goes from further behind. Only the node right in front of it gets another `next`.
      cases ys with
      | nil =>
          rw [if_pos rfl] at hback
          rw [show prev p = some a from hpp, setField_self]
          rw [show prev p = some a from hpp] at hback
          exact hback
      | cons b ys =>
          rw [if_neg (by simp)] at hback
          have hne : prev p ≠ some a := by
            rw [hpp]
            intro e
            cases hl : (b :: ys).getLast? with
            | none => simp at hl
            | some l =>
                rw [hl] at e
                obtain rfl : l = a := Option.some.inj e
                exact ha (List.mem_append_left _ (List.mem_of_mem_getLast? hl))
          rw [setField_of_ne _ _ hne]
          exact hback

end Ucore.Lib
