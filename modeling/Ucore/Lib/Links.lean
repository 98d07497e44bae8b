import Mathlib.Logic.Function.Basic
import Mathlib.Data.List.Nodup
import Mathlib.Data.List.Induction
import Mathlib.Tactic.Common

/-!
# `Ucore.Lib.Links`: intrusive circular doubly linked lists

An intrusive list keeps its two links inside the objects it strings together. A
`Links α` is the pair of link fields of every object at once, so an operation on one
list is a pair of function updates and what it leaves alone is an equation.

`Ring l h xs` says that the list with head node `h` holds exactly the nodes `xs`, in
this order, in both directions. The rules:

* `ring_init`: a freshly initialised head is an empty ring.
* `Ring.insertBetween`: linking a fresh node between two neighbours inserts it there.
* `Ring.unlink`: linking the two neighbours of a node to each other removes it.
* `Ring.frame`: a ring survives every update that leaves its own links alone.
* `Rings`: several rings over one link table, none sharing a node with another, and the
  same operations on one of them (`Rings.insert_head`, `Rings.unlink`).

`Seg` is the open path the ring is made of. It is what the inductions run over.
-/

set_option autoImplicit false

namespace Ucore.Lib

/-- The two link fields of every list node. -/
structure Links (α : Type) where
  prev : α → α
  next : α → α

namespace Links

variable {α : Type}

/-- `a` and `b` are neighbours: each of the two links names the other node. -/
def Linked (l : Links α) (a b : α) : Prop := l.next a = b ∧ l.prev b = a

/-- The path from `a` to `b` runs through exactly the nodes `xs`. -/
def Seg (l : Links α) : α → List α → α → Prop
  | a, [], b => l.Linked a b
  | a, x :: xs, b => l.Linked a x ∧ l.Seg x xs b

/-- The circular list with head node `h` holds exactly the nodes `xs`. -/
structure Ring (l : Links α) (h : α) (xs : List α) : Prop where
  seg : l.Seg h xs h
  nodup : (h :: xs).Nodup

/-- The last element of a list, with the element before it as the default, is one of
them. -/
theorem getLastD_mem_cons : ∀ (ys : List α) (a : α), ys.getLastD a ∈ a :: ys := by
  intro ys
  induction ys with
  | nil => intro a; simp
  | cons y ys ih => intro a; rw [List.getLastD_cons]; exact List.mem_cons_of_mem _ (ih y)

/-- The first element of a list, with a default, is one of them. -/
theorem headD_mem_append_singleton (zs : List α) (b : α) : zs.headD b ∈ zs ++ [b] := by
  cases zs <;> simp

/-- The `next` links alone lead from `a` through exactly the nodes `xs` to `b`. -/
def Walk (l : Links α) : α → List α → α → Prop
  | a, [], b => l.next a = b
  | a, x :: xs, b => l.next a = x ∧ l.Walk x xs b

/-- A segment can be walked along `next`. -/
theorem Seg.walk {l : Links α} {b : α} : ∀ {xs : List α} {a : α}, l.Seg a xs b → l.Walk a xs b := by
  intro xs
  induction xs with
  | nil => intro a h; exact h.1
  | cons x xs ih => intro a h; exact ⟨h.1.1, ih h.2⟩

/-- Following `next` from `a` to the first visit of `b` meets one list of nodes only. -/
theorem Walk.unique {l : Links α} {b : α} : ∀ {xs ys : List α} {a : α}, l.Walk a xs b →
    l.Walk a ys b → b ∉ xs → b ∉ ys → xs = ys := by
  intro xs
  induction xs with
  | nil =>
      intro ys a hx hy _ hny
      cases ys with
      | nil => rfl
      | cons y ys => exact absurd (by simp [← hy.1, show l.next a = b from hx]) hny
  | cons x xs ih =>
      intro ys a hx hy hnx hny
      cases ys with
      | nil => exact absurd (by simp [← hx.1, show l.next a = b from hy]) hnx
      | cons y ys =>
          have hxy : x = y := hx.1.symm.trans hy.1
          subst hxy
          rw [ih hx.2 hy.2 (fun e => hnx (by simp [e])) (fun e => hny (by simp [e]))]

/-- A segment is cut in two at one of its nodes. -/
theorem seg_append (l : Links α) :
    ∀ (ys : List α) (a e b : α) (zs : List α),
      l.Seg a (ys ++ e :: zs) b ↔ l.Seg a ys e ∧ l.Seg e zs b := by
  intro ys
  induction ys with
  | nil => intro a e b zs; rfl
  | cons y ys ih => intro a e b zs; simp only [List.cons_append, Seg, ih, and_assoc]

/-- The first step of a path. -/
theorem Seg.next_start {l : Links α} {a b : α} {xs : List α} (h : l.Seg a xs b) :
    l.next a = xs.headD b := by
  cases xs with
  | nil => exact h.1
  | cons x xs => exact h.1.1

/-- The last step of a path, backwards. -/
theorem Seg.prev_end {l : Links α} {b : α} :
    ∀ {xs : List α} {a : α}, l.Seg a xs b → l.prev b = xs.getLastD a := by
  intro xs
  induction xs with
  | nil => intro a h; exact h.2
  | cons x xs ih => intro a h; rw [ih h.2, List.getLastD_cons]

/-- The `prev` links lead back through the same nodes. -/
theorem Seg.walk_back {l : Links α} {b : α} :
    ∀ {xs : List α} {a : α}, l.Seg a xs b → Walk ⟨l.next, l.prev⟩ b xs.reverse a := by
  have hsnoc : ∀ (xs : List α) (b x a : α), Walk ⟨l.next, l.prev⟩ b xs x → l.prev x = a →
      Walk ⟨l.next, l.prev⟩ b (xs ++ [x]) a := by
    intro xs
    induction xs with
    | nil => intro b x a h hx; exact ⟨h, hx⟩
    | cons y ys ih => intro b x a h hx; exact ⟨h.1, ih y x a h.2 hx⟩
  intro xs
  induction xs with
  | nil => intro a h; exact h.2
  | cons x xs ih =>
      intro a h
      rw [List.reverse_cons]
      exact hsnoc _ _ _ _ (ih h.2) h.1.2

/-- A path depends only on the `next` fields of its nodes up to the last one and on the
`prev` fields of its nodes from the second one on. -/
theorem Seg.frame {l l' : Links α} {b : α} :
    ∀ {xs : List α} {a : α}, l.Seg a xs b →
      (∀ x ∈ a :: xs, l'.next x = l.next x) → (∀ x ∈ xs ++ [b], l'.prev x = l.prev x) →
      l'.Seg a xs b := by
  intro xs
  induction xs with
  | nil =>
      intro a h hn hp
      exact ⟨(hn a (by simp)).trans h.1, (hp b (by simp)).trans h.2⟩
  | cons x xs ih =>
      intro a h hn hp
      refine ⟨⟨(hn a (by simp)).trans h.1.1, (hp x (by simp)).trans h.1.2⟩, ih h.2 ?_ ?_⟩
      · exact fun y hy => hn y (List.mem_cons_of_mem _ hy)
      · exact fun y hy => hp y (by simpa using Or.inr (by simpa using hy))

/-- The neighbours of a node inside a ring. -/
theorem Ring.mid {l : Links α} {h e : α} {ys zs : List α} (r : l.Ring h (ys ++ e :: zs)) :
    l.next e = zs.headD h ∧ l.prev e = ys.getLastD h := by
  have hs := (seg_append l ys h e h zs).mp r.seg
  exact ⟨hs.2.next_start, hs.1.prev_end⟩

/-- The first node of a ring comes behind the head. -/
theorem Ring.next_head {l : Links α} {h : α} {xs : List α} (r : l.Ring h xs) :
    l.next h = xs.headD h := r.seg.next_start

/-- The last node of a ring comes in front of the head. -/
theorem Ring.prev_head {l : Links α} {h : α} {xs : List α} (r : l.Ring h xs) :
    l.prev h = xs.getLastD h := r.seg.prev_end

/-- The node behind the part `ys` of a ring. -/
theorem Ring.next_getLastD {l : Links α} {h : α} {ys zs : List α} (r : l.Ring h (ys ++ zs)) :
    l.next (ys.getLastD h) = zs.headD h := by
  cases ys using List.reverseRecOn with
  | nil => simpa using r.next_head
  | append_singleton ys a =>
      rw [List.append_assoc] at r
      simpa using r.mid.1

/-- The node in front of the part `zs` of a ring. -/
theorem Ring.prev_headD {l : Links α} {h : α} {ys zs : List α} (r : l.Ring h (ys ++ zs)) :
    l.prev (zs.headD h) = ys.getLastD h := by
  cases zs with
  | nil => simpa using r.prev_head
  | cons z zs => simpa using r.mid.2

/-- The head node is not one of the nodes of its ring. -/
theorem Ring.head_notMem {l : Links α} {h : α} {xs : List α} (r : l.Ring h xs) : h ∉ xs :=
  (List.nodup_cons.mp r.nodup).1

/-- The test a C program makes: the head's `next` is the head itself exactly when the
ring is empty. -/
theorem Ring.next_head_eq_iff {l : Links α} {h : α} {xs : List α} (r : l.Ring h xs) :
    l.next h = h ↔ xs = [] := by
  rw [r.next_head]
  cases xs with
  | nil => simp
  | cons x xs =>
      have hx : h ≠ x := fun e => r.head_notMem (by simp [e])
      simp [Ne.symm hx]

/-- The neighbours of a node of a ring are nodes of the ring. -/
theorem Ring.neighbours_mem {l : Links α} {h e : α} {ys zs : List α}
    (r : l.Ring h (ys ++ e :: zs)) :
    l.next e ∈ h :: (ys ++ e :: zs) ∧ l.prev e ∈ h :: (ys ++ e :: zs) := by
  obtain ⟨hn, hp⟩ := r.mid
  have h1 := headD_mem_append_singleton zs h
  have h2 := getLastD_mem_cons ys h
  rw [hn, hp]
  simp only [List.mem_append, List.mem_cons, List.not_mem_nil, or_false] at h1 h2 ⊢
  tauto

/-- A walk along a ring stays on it. -/
theorem Ring.next_mem {l : Links α} {h x : α} {xs : List α} (r : l.Ring h xs)
    (hx : x ∈ h :: xs) : l.next x ∈ h :: xs := by
  rcases List.mem_cons.mp hx with rfl | hx
  · rw [r.next_head]
    have hmem := headD_mem_append_singleton xs x
    simp only [List.mem_append, List.mem_cons, List.not_mem_nil, or_false] at hmem ⊢
    tauto
  · obtain ⟨ys, zs, rfl⟩ := List.append_of_mem hx
    exact r.neighbours_mem.1

/-- A ring depends only on the links of its own nodes. -/
theorem Ring.frame {l l' : Links α} {h : α} {xs : List α} (r : l.Ring h xs)
    (hn : ∀ x ∈ h :: xs, l'.next x = l.next x) (hp : ∀ x ∈ h :: xs, l'.prev x = l.prev x) :
    l'.Ring h xs :=
  ⟨r.seg.frame hn (fun x hx => hp x (by simpa [or_comm] using hx)), r.nodup⟩

/-- Two rings over the same link table with the same head are the same list. -/
theorem Ring.unique {l : Links α} {h : α} {xs ys : List α} (r : l.Ring h xs)
    (r' : l.Ring h ys) : xs = ys :=
  r.seg.walk.unique r'.seg.walk r.head_notMem r'.head_notMem

variable [DecidableEq α]

/-- A node whose two links name itself: an empty list, or a node on no list. -/
def init (l : Links α) (e : α) : Links α where
  prev := Function.update l.prev e e
  next := Function.update l.next e e

/-- Insert `e` between the neighbours `p` and `n`. The two outer links are written before
the two links of `e`, so the result is defined for aliased arguments as well. -/
def insertBetween (l : Links α) (e p n : α) : Links α where
  prev := Function.update (Function.update l.prev n e) e p
  next := Function.update (Function.update l.next p e) e n

/-- Make `p` and `n` neighbours. -/
def join (l : Links α) (p n : α) : Links α where
  prev := Function.update l.prev n p
  next := Function.update l.next p n

/-- Take `e` out of its list by making its two neighbours each other's. -/
def unlink (l : Links α) (e : α) : Links α := l.join (l.prev e) (l.next e)

/-- The other nodes have the successors they had. -/
theorem join_next_of_ne (l : Links α) {p n x : α} (hp : x ≠ p) :
    (l.join p n).next x = l.next x := by
  simp [join, hp]

/-- The other nodes have the predecessors they had. -/
theorem join_prev_of_ne (l : Links α) {p n x : α} (hn : x ≠ n) :
    (l.join p n).prev x = l.prev x := by
  simp [join, hn]

/-- The other nodes have the successors they had. -/
theorem insertBetween_next_of_ne (l : Links α) {e p n x : α} (he : x ≠ e) (hp : x ≠ p) :
    (l.insertBetween e p n).next x = l.next x := by
  simp [insertBetween, he, hp]

/-- The other nodes have the predecessors they had. -/
theorem insertBetween_prev_of_ne (l : Links α) {e p n x : α} (he : x ≠ e) (hn : x ≠ n) :
    (l.insertBetween e p n).prev x = l.prev x := by
  simp [insertBetween, he, hn]

/-- Insertion into a path, at the place the two neighbours name. -/
theorem Seg.insertBetween {l : Links α} {e b : α} {zs : List α} :
    ∀ {ys : List α} {a : α}, l.Seg a (ys ++ zs) b →
      (a :: ys ++ zs).Nodup → (ys ++ zs ++ [b]).Nodup → e ∉ a :: ys ++ zs ++ [b] →
      (l.insertBetween e (ys.getLastD a) (zs.headD b)).Seg a (ys ++ e :: zs) b := by
  intro ys
  induction ys with
  | nil =>
      intro a hs ha hb he
      have hae : a ≠ e := fun h => he (by simp [h])
      refine ⟨⟨by simp [Links.insertBetween, hae], by simp [Links.insertBetween]⟩, ?_⟩
      cases zs with
      | nil =>
          have hbe : b ≠ e := fun h => he (by simp [h])
          exact ⟨by simp [Links.insertBetween], by simp [Links.insertBetween, hbe]⟩
      | cons z zs =>
          have hze : z ≠ e := fun h => he (by simp [h])
          refine ⟨⟨by simp [Links.insertBetween], by simp [Links.insertBetween, hze]⟩, ?_⟩
          -- Beyond `z` the path has its old links: `a` is not on it, and `z` is met once.
          refine hs.2.frame (fun x hx => ?_) (fun x hx => ?_)
          · refine insertBetween_next_of_ne l (fun h => he ?_) (fun h => ?_)
            · simp only [← h, List.nil_append, List.cons_append, List.mem_cons,
                List.mem_append] at hx ⊢
              tauto
            · subst h
              simp only [List.nil_append, List.cons_append, List.nodup_cons] at ha
              exact ha.1 hx
          · refine insertBetween_prev_of_ne l (fun h => he ?_) (fun h => ?_)
            · simp only [← h, List.nil_append, List.cons_append, List.mem_cons,
                List.mem_append] at hx ⊢
              tauto
            · subst h
              simp only [List.nil_append, List.cons_append, List.nodup_cons] at hb
              exact hb.1 hx
  | cons y ys ih =>
      intro a hs ha hb he
      have hae : a ≠ e := fun h => he (by simp [h])
      have hye : y ≠ e := fun h => he (by simp [h])
      have hlast : a ≠ (y :: ys).getLastD a := by
        intro h
        simp only [List.cons_append, List.nodup_cons] at ha
        refine ha.1 ?_
        have hin := getLastD_mem_cons ys y
        rw [List.getLastD_cons] at h
        rw [← h] at hin
        simp only [List.mem_cons, List.mem_append] at hin ⊢
        tauto
      have hhead : y ≠ zs.headD b := by
        intro h
        simp only [List.cons_append, List.nodup_cons, List.append_assoc] at hb
        exact hb.1 (List.mem_append_right _ (h ▸ headD_mem_append_singleton zs b))
      refine ⟨⟨?_, ?_⟩, ?_⟩
      · rw [insertBetween_next_of_ne l hae hlast]; exact hs.1.1
      · rw [insertBetween_prev_of_ne l hye hhead]; exact hs.1.2
      · rw [List.getLastD_cons]
        refine ih hs.2 (List.nodup_cons.mp ha).2 (List.nodup_cons.mp hb).2 ?_
        exact fun h => he (List.mem_cons_of_mem _ h)

/-- Linking a fresh node between two neighbours of a ring inserts it there. -/
theorem Ring.insertBetween {l : Links α} {h e : α} {ys zs : List α} (r : l.Ring h (ys ++ zs))
    (he : e ∉ h :: (ys ++ zs)) :
    (l.insertBetween e (ys.getLastD h) (zs.headD h)).Ring h (ys ++ e :: zs) := by
  have hnd := List.nodup_cons.mp r.nodup
  constructor
  · refine r.seg.insertBetween r.nodup ?_ ?_
    · refine List.nodup_append.mpr ⟨hnd.2, by simp, fun x hx y hy hxy => hnd.1 ?_⟩
      rwa [← List.mem_singleton.mp hy, ← hxy]
    · simpa [or_comm, or_left_comm, or_assoc] using he
  · have hp : (h :: (ys ++ e :: zs)).Perm (e :: h :: (ys ++ zs)) :=
      ((List.perm_middle).cons h).trans (List.Perm.swap _ _ _)
    exact hp.nodup_iff.mpr (List.nodup_cons.mpr ⟨he, r.nodup⟩)

/-- A freshly initialised head is an empty ring. -/
theorem ring_init (l : Links α) (h : α) : (l.init h).Ring h [] :=
  ⟨⟨by simp [init], by simp [init]⟩, by simp⟩

/-- Making the neighbours of a node each other's removes it from its ring. -/
theorem Ring.unlink {l : Links α} {h e : α} {ys zs : List α} (r : l.Ring h (ys ++ e :: zs)) :
    (l.unlink e).Ring h (ys ++ zs) := by
  obtain ⟨hn, hp⟩ := r.mid
  have hs := (seg_append l ys h e h zs).mp r.seg
  have hperm : (h :: (ys ++ e :: zs)).Perm (e :: h :: (ys ++ zs)) :=
    ((List.perm_middle).cons h).trans (List.Perm.swap _ _ _)
  have hnd := List.nodup_cons.mp (hperm.nodup_iff.mp r.nodup)
  refine ⟨?_, hnd.2⟩
  -- The induction is on the nodes in front of the one that goes, from the node `a` on.
  have key : ∀ (ys : List α) (a : α), l.Seg a ys e → l.Seg e zs h →
      (a :: (ys ++ zs)).Nodup → h ∉ ys ++ zs →
      (l.join (ys.getLastD a) (zs.headD h)).Seg a (ys ++ zs) h := by
    intro ys
    induction ys with
    | nil =>
        intro a _ hz ha hh
        cases zs with
        | nil => exact ⟨by simp [join], by simp [join]⟩
        | cons z zs =>
            refine ⟨⟨by simp [join], by simp [join]⟩, hz.2.frame (fun x hx => ?_) (fun x hx => ?_)⟩
            · have hxa : x ≠ a := fun e => (List.nodup_cons.mp ha).1 (by simpa [e] using hx)
              simp [join, hxa]
            · have hxz : x ≠ z := by
                rintro rfl
                simp only [List.mem_append, List.mem_singleton] at hx
                rcases hx with hx | rfl
                · exact (List.nodup_cons.mp (List.nodup_cons.mp ha).2).1 hx
                · exact hh (by simp)
              simp [join, hxz]
    | cons y ys ih =>
        intro a hy hz ha hh
        -- The two fields that are written are those of the neighbours, so the first segment keeps
        -- its own.
        have hlast : a ≠ ys.getLastD y := by
          intro heq
          have hin := getLastD_mem_cons ys y
          rw [← heq] at hin
          refine (List.nodup_cons.mp ha).1 ?_
          simp only [List.cons_append, List.mem_cons, List.mem_append] at hin ⊢
          tauto
        have hhead : y ≠ zs.headD h := by
          intro heq
          cases zs with
          | nil => exact hh (by simp [show y = h from heq])
          | cons z zs =>
              refine (List.nodup_cons.mp (List.nodup_cons.mp ha).2).1 ?_
              simp [show y = z from heq]
        rw [List.getLastD_cons]
        refine ⟨⟨?_, ?_⟩, ?_⟩
        · rw [join_next_of_ne l hlast]; exact hy.1.1
        · rw [join_prev_of_ne l hhead]; exact hy.1.2
        exact ih y hy.2 hz (List.nodup_cons.mp ha).2 (fun e => hh (by simp [e]))
  have := key ys h hs.1 hs.2 hnd.2 (List.nodup_cons.mp hnd.2).1
  unfold Links.unlink
  rw [hn, hp]
  exact this

/-! ### Rings that share no node

An operation on one ring writes the links of the inserted node and of its two
neighbours only, so every ring without these nodes survives. -/

/-- An insertion elsewhere leaves a ring. -/
theorem Ring.frame_insertBetween {l : Links α} {h e p n : α} {xs : List α} (r : l.Ring h xs)
    (he : e ∉ h :: xs) (hp : p ∉ h :: xs) (hn : n ∉ h :: xs) :
    (l.insertBetween e p n).Ring h xs :=
  r.frame
    (fun _ hx => insertBetween_next_of_ne l (fun c => he (c ▸ hx)) (fun c => hp (c ▸ hx)))
    (fun _ hx => insertBetween_prev_of_ne l (fun c => he (c ▸ hx)) (fun c => hn (c ▸ hx)))

/-- A removal elsewhere leaves a ring. -/
theorem Ring.frame_unlink {l : Links α} {h e : α} {xs : List α} (r : l.Ring h xs)
    (hp : l.prev e ∉ h :: xs) (hn : l.next e ∉ h :: xs) : (l.unlink e).Ring h xs :=
  r.frame (fun _ hx => join_next_of_ne l (fun c => hp (c ▸ hx)))
    (fun _ hx => join_prev_of_ne l (fun c => hn (c ▸ hx)))

/-- A new head elsewhere leaves a ring. -/
theorem Ring.frame_init {l : Links α} {h e : α} {xs : List α} (r : l.Ring h xs)
    (he : e ∉ h :: xs) : (l.init e).Ring h xs :=
  r.frame (fun x hx => by simp [init, show x ≠ e from fun c => he (c ▸ hx)])
    (fun x hx => by simp [init, show x ≠ e from fun c => he (c ▸ hx)])

/-! ### Families of rings -/

/-- The rings with the heads `hd k` for the `k` in `I` hold exactly the nodes `xs k`, and
no two of them share a node. -/
structure Rings {ι : Type} (l : Links α) (I : ι → Prop) (hd : ι → α) (xs : ι → List α) :
    Prop where
  ring : ∀ k, I k → l.Ring (hd k) (xs k)
  apart : ∀ j k, I j → I k → j ≠ k → ∀ x ∈ hd j :: xs j, x ∉ hd k :: xs k

namespace Rings

variable {ι : Type} [DecidableEq ι] {l : Links α} {I : ι → Prop} {hd : ι → α}
  {xs : ι → List α}

/-- A fresh node put first on one of the rings. -/
theorem insert_head (r : l.Rings I hd xs) {k : ι} (hk : I k) {e : α}
    (he : ∀ j, I j → e ∉ hd j :: xs j) :
    (l.insertBetween e (hd k) (l.next (hd k))).Rings I hd
      (Function.update xs k (e :: xs k)) := by
  have hnext : l.next (hd k) ∈ hd k :: xs k := by
    rw [(r.ring k hk).next_head]
    have hmem := headD_mem_append_singleton (xs k) (hd k)
    simp only [List.mem_append, List.mem_cons, List.not_mem_nil, or_false] at hmem ⊢
    tauto
  constructor
  · intro j hj
    by_cases hjk : j = k
    · subst hjk
      rw [Function.update_self, (r.ring j hj).next_head]
      have r' : l.Ring (hd j) ([] ++ xs j) := r.ring j hj
      exact r'.insertBetween (he j hj)
    · rw [Function.update_of_ne hjk]
      -- The three nodes written belong to the ring `k` or are new.
      have hout : ∀ x ∈ hd k :: xs k, x ∉ hd j :: xs j := r.apart k j hk hj (Ne.symm hjk)
      exact (r.ring j hj).frame_insertBetween (he j hj) (hout _ (by simp)) (hout _ hnext)
  · intro i j hi hj hij x hx
    have hold := r.apart i j hi hj hij
    by_cases hik : i = k
    · subst hik
      rw [Function.update_of_ne (Ne.symm hij)]
      rw [Function.update_self] at hx
      have hcases : x = e ∨ x ∈ hd i :: xs i := by
        simp only [List.mem_cons] at hx ⊢
        tauto
      rcases hcases with rfl | hmem
      · exact he j hj
      · exact hold x hmem
    · rw [Function.update_of_ne hik] at hx
      by_cases hjk : j = k
      · subst hjk
        rw [Function.update_self]
        have hne : x ≠ e := fun hxe => he i hi (hxe ▸ hx)
        have hnot := hold x hx
        simp only [List.mem_cons, not_or] at hnot ⊢
        exact ⟨hnot.1, hne, hnot.2⟩
      · rw [Function.update_of_ne hjk]
        exact hold x hx

/-- A node taken off one of the rings. -/
theorem unlink (r : l.Rings I hd xs) {k : ι} (hk : I k) {e : α} {ys zs : List α}
    (hxs : xs k = ys ++ e :: zs) :
    (l.unlink e).Rings I hd (Function.update xs k (ys ++ zs)) := by
  have hring := r.ring k hk
  rw [hxs] at hring
  obtain ⟨hn, hp⟩ := hring.neighbours_mem
  rw [← hxs] at hn hp
  have hsub : ∀ x ∈ hd k :: (ys ++ zs), x ∈ hd k :: xs k := by
    intro x hx
    rw [hxs]
    simp only [List.mem_cons, List.mem_append] at hx ⊢
    tauto
  constructor
  · intro j hj
    by_cases hjk : j = k
    · subst hjk
      rw [Function.update_self]
      exact hring.unlink
    · rw [Function.update_of_ne hjk]
      have hout : ∀ x ∈ hd k :: xs k, x ∉ hd j :: xs j := r.apart k j hk hj (Ne.symm hjk)
      exact (r.ring j hj).frame_unlink (hout _ hp) (hout _ hn)
  · intro i j hi hj hij x hx
    have hold := r.apart i j hi hj hij
    by_cases hik : i = k
    · subst hik
      rw [Function.update_of_ne (Ne.symm hij)]
      rw [Function.update_self] at hx
      exact hold x (hsub x hx)
    · rw [Function.update_of_ne hik] at hx
      by_cases hjk : j = k
      · subst hjk
        rw [Function.update_self]
        exact fun hmem => hold x hx (hsub x hmem)
      · rw [Function.update_of_ne hjk]
        exact hold x hx

end Rings

end Links

end Ucore.Lib
