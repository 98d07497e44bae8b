import Ucore.Lib.Cycle
import Ucore.Mm.Kmalloc

/-!
# `Ucore.Proofs.Mm.Slob`: the free list of the allocator

The free list is circular, and in the order of the addresses its blocks stand apart (`FreeList`).
`slob_free` puts a block between its neighbours and merges it with those that it touches
(`slobFree_spec`), and `slob_alloc` cuts a block out of the list (`slobTake_spec`). The static block
never leaves the list, so a search meets two blocks at least.

`FreeList k bs` says four things of the list `bs` of the free blocks, in ascending order: there is a
gap between any two, each has its length in its header, the links go around in this order, and
`slobfree` is one of them. The search for the place of a block starts at `slobfree`, wherever that
is, and ends at the last block in front of it, or at the highest one when there is none
(`reinsertionPoint_spec`). The two tests of `slob_free` are those two cases.

A merge changes the header and the link of one block, and an allocation those of two. `SameBut`
names the units that have been written, so that every other header is known to be as it was.
-/

set_option autoImplicit false

namespace Ucore.Proofs.Mm

open Ucore.Lib Ucore.Mm

/-- The free list has exactly these blocks. -/
structure FreeList (k : Kmem) (bs : List Span) : Prop where
  gap : bs.Pairwise fun b c => b.stop < c.start
  units : ∀ b ∈ bs, k.units b.start = b.len ∧ 0 < b.len
  cyc : Cyclic k.next (bs.map Span.start)
  rover : k.slobfree ∈ bs.map Span.start

/-- The two memories agree but for the words of some units. -/
def SameBut (s : List Nat) (k k' : Kmem) : Prop :=
  ∀ u, u ∉ s → k'.lo u = k.lo u ∧ k'.hi u = k.hi u

variable {k k' k'' : Kmem} {bs as cs : List Span} {b c n : Nat} {s t : List Nat}

/-- Changes to some units and then to others. -/
theorem SameBut.trans (h : SameBut s k k') (h' : SameBut t k' k'') : SameBut (s ++ t) k k'' := by
  intro u hu
  rw [List.mem_append, not_or] at hu
  rw [(h' u hu.2).1, (h' u hu.2).2]
  exact h u hu.1

/-- Changes to some units are changes to more. -/
theorem SameBut.mono (h : SameBut s k k') (hst : ∀ u ∈ s, u ∈ t) : SameBut t k k' :=
  fun u hu => h u fun hs => hu (hst u hs)

/-- A block that begins elsewhere has the length it had. -/
theorem SameBut.units (h : SameBut s k k') (hb : b ∉ s) : k'.units b = k.units b := (h b hb).1

/-- A block that begins elsewhere has the successor it had. -/
theorem SameBut.next (h : SameBut s k k') (hb : b ∉ s) : k'.next b = k.next b := (h b hb).2

/-- A write to a length changes one unit. -/
theorem sameBut_setUnits : SameBut [b] k (k.setUnits b n) := fun u hu =>
  ⟨Function.update_of_ne (fun h => hu (by simp [h])) .., rfl⟩

/-- A write to a link changes one unit. -/
theorem sameBut_setNext : SameBut [b] k (k.setNext b n) := fun u hu =>
  ⟨rfl, Function.update_of_ne (fun h => hu (by simp [h])) ..⟩

/-- The length that was written. -/
@[simp] theorem setUnits_units_self : (k.setUnits b n).units b = n := Function.update_self ..

/-- The length of another block. -/
@[simp] theorem setUnits_units (h : c ≠ b) : (k.setUnits b n).units c = k.units c :=
  Function.update_of_ne h ..

/-- A write to a length leaves the links. -/
@[simp] theorem setUnits_next : (k.setUnits b n).next c = k.next c := rfl

/-- A write to a link leaves the lengths. -/
@[simp] theorem setNext_units : (k.setNext b n).units c = k.units c := rfl

/-- The link that was written. -/
@[simp] theorem setNext_next_self : (k.setNext b n).next b = n := Function.update_self ..

/-- The link of another block. -/
@[simp] theorem setNext_next (h : c ≠ b) : (k.setNext b n).next c = k.next c :=
  Function.update_of_ne h ..

/-! ### The order of the blocks -/

/-- No block of the list is empty. -/
theorem FreeList.pos (h : FreeList k bs) : ∀ b ∈ bs, 0 < b.len := fun b hb => (h.units b hb).2

/-- The starts ascend. -/
theorem starts_lt (hgap : bs.Pairwise fun b c => b.stop < c.start) :
    (bs.map Span.start).Pairwise (· < ·) := by
  rw [List.pairwise_map]
  refine hgap.imp ?_
  intro b c h
  unfold Span.stop at h
  omega

/-- No block is on the list twice. -/
theorem FreeList.nodup (h : FreeList k bs) : (bs.map Span.start).Nodup :=
  (starts_lt h.gap).imp Nat.ne_of_lt

/-- A block beside the list lies between two of its blocks. -/
theorem gap_split (hgap : bs.Pairwise fun b c => b.stop < c.start)
    (hpos : ∀ b ∈ bs, 0 < b.len) (hout : ∀ x ∈ bs, x.stop ≤ b ∨ b + n ≤ x.start) :
    ∃ as cs, bs = as ++ cs ∧ (∀ x ∈ as, x.stop ≤ b) ∧ ∀ x ∈ cs, b + n ≤ x.start := by
  induction bs with
  | nil => exact ⟨[], [], rfl, by simp, by simp⟩
  | cons d bs ih =>
      obtain ⟨hd, hgap⟩ := List.pairwise_cons.mp hgap
      rcases hout d List.mem_cons_self with hle | hge
      · obtain ⟨as, cs, rfl, has, hcs⟩ := ih hgap (fun x hx => hpos x (List.mem_cons_of_mem d hx))
          fun x hx => hout x (List.mem_cons_of_mem d hx)
        refine ⟨d :: as, cs, rfl, ?_, hcs⟩
        intro x hx
        rcases List.mem_cons.mp hx with rfl | hx
        · exact hle
        · exact has x hx
      · refine ⟨[], d :: bs, rfl, by simp, ?_⟩
        intro x hx
        rcases List.mem_cons.mp hx with rfl | hx
        · exact hge
        · have hdx := hd x hx
          unfold Span.stop at hdx
          omega

/-- The test that ends the loop of `slob_free`. -/
def PointOk (k : Kmem) (b c : Nat) : Prop :=
  c < b ∧ b < k.next c ∨ k.next c ≤ c ∧ (c < b ∨ b < k.next c)

/-- The loop stops at the first block that passes its test. -/
theorem reinsertionPoint_spec {xs : List Nat} : ∀ {a e : Nat}, Path k.next a xs e →
    (∃ c ∈ a :: xs, PointOk k b c) → ∀ fuel, xs.length < fuel →
    ∃ c ∈ a :: xs, PointOk k b c ∧ reinsertionPoint k b fuel a = .ok c := by
  induction xs with
  | nil =>
      rintro a e - ⟨c, hc, hok⟩ fuel hfuel
      obtain rfl : c = a := by simpa using hc
      obtain ⟨fuel, rfl⟩ : ∃ m, fuel = m + 1 := ⟨fuel - 1, by simp at hfuel; omega⟩
      refine ⟨c, hc, hok, ?_⟩
      unfold reinsertionPoint
      by_cases h1 : c < b ∧ b < k.next c
      · rw [if_pos h1]
      · rw [if_neg h1, if_pos (hok.resolve_left h1)]
  | cons x xs ih =>
      intro a e hpath hex fuel hfuel
      obtain ⟨fuel, rfl⟩ : ∃ m, fuel = m + 1 := ⟨fuel - 1, by simp at hfuel; omega⟩
      unfold reinsertionPoint
      by_cases h1 : a < b ∧ b < k.next a
      · exact ⟨a, List.mem_cons_self, Or.inl h1, by rw [if_pos h1]⟩
      · by_cases h2 : k.next a ≤ a ∧ (a < b ∨ b < k.next a)
        · exact ⟨a, List.mem_cons_self, Or.inr h2, by rw [if_neg h1, if_pos h2]⟩
        · have hnot : ¬ PointOk k b a := not_or.mpr ⟨h1, h2⟩
          obtain ⟨c, hc, hok⟩ := hex
          have hcx : c ∈ x :: xs := by
            rcases List.mem_cons.mp hc with rfl | hc
            · exact absurd hok hnot
            · exact hc
          obtain ⟨c', hc', hok', hrun⟩ := ih hpath.2 ⟨c, hcx, hok⟩ fuel
            (by simpa using hfuel)
          refine ⟨c', List.mem_cons_of_mem a hc', hok', ?_⟩
          rw [if_neg h1, if_neg h2, hpath.1]
          exact hrun

/-- The successor of a block of the list. -/
theorem next_of_split {ls rs : List Span} {x : Span}
    (hcyc : Cyclic k.next ((ls ++ x :: rs).map Span.start)) :
    k.next x.start = ((rs ++ ls).map Span.start).headD x.start := by
  rw [List.map_append, List.map_cons] at hcyc
  rw [List.map_append]
  exact hcyc.path.next_eq

/-- Where `b` belongs: behind the blocks `as` and in front of the blocks `cs`. -/
structure Between (b n : Nat) (as cs : List Span) : Prop where
  gap : (as ++ cs).Pairwise fun b c => b.stop < c.start
  pos : ∀ x ∈ as ++ cs, 0 < x.len
  len : 0 < n
  low : ∀ x ∈ as, x.stop ≤ b
  high : ∀ x ∈ cs, b + n ≤ x.start

/-- What comes before the place lies below it. -/
theorem Between.low_lt (h : Between b n as cs) {x : Span} (hx : x ∈ as) : x.start < b := by
  have hlow := h.low x hx
  have hpos := h.pos x (List.mem_append_left cs hx)
  unfold Span.stop at hlow
  omega

/-- What comes behind the place lies above it. -/
theorem Between.high_lt (h : Between b n as cs) {x : Span} (hx : x ∈ cs) : b < x.start := by
  have hhigh := h.high x hx
  have hlen := h.len
  omega

/-- The block in front of the place, around the list. -/
theorem Between.last (h : Between b n as cs) {zs : List Span} {x : Span}
    (hzs : cs ++ as = zs ++ [x]) :
    (∃ ls, as = ls ++ [x] ∧ zs = cs ++ ls) ∨ as = [] ∧ cs = zs ++ [x] := by
  rcases List.eq_nil_or_concat as with rfl | ⟨ls, y, rfl⟩
  · rw [List.append_nil] at hzs
    exact Or.inr ⟨rfl, hzs⟩
  · rw [List.concat_eq_append, ← List.append_assoc] at hzs
    obtain ⟨hz, hy⟩ := List.append_inj' hzs rfl
    cases hy
    exact Or.inl ⟨ls, by simp, hz.symm⟩

/-- The block in front of the place passes the test. -/
theorem Between.pointOk (h : Between b n as cs) (hcyc : Cyclic k.next ((as ++ cs).map Span.start))
    {zs : List Span} {x : Span} (hzs : cs ++ as = zs ++ [x]) : PointOk k b x.start := by
  have hasc := starts_lt h.gap
  rcases h.last hzs with ⟨ls, rfl, rfl⟩ | ⟨rfl, rfl⟩
  · have hlt : x.start < b := h.low_lt (by simp)
    rw [List.append_assoc] at hcyc
    have hnext := next_of_split hcyc
    cases cs with
    | cons d cs =>
        have hd := h.high_lt (x := d) List.mem_cons_self
        replace hnext : k.next x.start = d.start := hnext
        exact Or.inl ⟨hlt, by omega⟩
    | nil =>
        cases ls with
        | nil =>
            replace hnext : k.next x.start = x.start := hnext
            exact Or.inr ⟨hnext.le, Or.inl hlt⟩
        | cons d ls =>
            have hd : d.start < x.start := by
              simp only [List.cons_append, List.append_nil, List.map_cons] at hasc
              exact (List.pairwise_cons.mp hasc).1 x.start (by simp)
            replace hnext : k.next x.start = d.start := hnext
            exact Or.inr ⟨by omega, Or.inl hlt⟩
  · have hlt : b < x.start := h.high_lt (by simp)
    rw [List.nil_append] at hcyc
    have hnext := next_of_split hcyc
    cases zs with
    | nil =>
        replace hnext : k.next x.start = x.start := hnext
        exact Or.inr ⟨hnext.le, Or.inr (by omega)⟩
    | cons d zs =>
        have hd : d.start < x.start := by
          simp only [List.nil_append, List.cons_append, List.map_cons] at hasc
          exact (List.pairwise_cons.mp hasc).1 x.start (by simp)
        have hdb : b < d.start := h.high_lt (by simp)
        replace hnext : k.next x.start = d.start := hnext
        exact Or.inr ⟨by omega, Or.inr (by omega)⟩

/-- No other block passes it. -/
theorem Between.point_last (h : Between b n as cs)
    (hcyc : Cyclic k.next ((as ++ cs).map Span.start)) (hc : c ∈ (as ++ cs).map Span.start)
    (hok : PointOk k b c) : ∃ zs x, cs ++ as = zs ++ [x] ∧ x.start = c := by
  obtain ⟨x, hx, rfl⟩ := List.mem_map.mp hc
  rcases List.mem_append.mp hx with hx | hx
  · obtain ⟨ls, rs, rfl⟩ := List.append_of_mem hx
    have hlt := h.low_lt hx
    have hcyc' : Cyclic k.next ((ls ++ x :: (rs ++ cs)).map Span.start) := by simpa using hcyc
    have hnext := next_of_split hcyc'
    cases rs with
    | nil => exact ⟨cs ++ ls, x, by simp, rfl⟩
    | cons d rs =>
        have hd : x.stop < d.start := by
          have hgap := (List.pairwise_append.mp (List.pairwise_append.mp h.gap).1).2.1
          exact (List.pairwise_cons.mp hgap).1 d List.mem_cons_self
        have hdb : d.start < b := h.low_lt (by simp)
        replace hnext : k.next x.start = d.start := hnext
        unfold PointOk at hok
        unfold Span.stop at hd
        omega
  · obtain ⟨ls, rs, rfl⟩ := List.append_of_mem hx
    have hlt := h.high_lt hx
    have hcyc' : Cyclic k.next (((as ++ ls) ++ x :: rs).map Span.start) := by simpa using hcyc
    have hnext := next_of_split hcyc'
    unfold PointOk at hok
    cases rs with
    | cons d rs =>
        have hd : x.stop < d.start := by
          have hgap := (List.pairwise_append.mp (List.pairwise_append.mp h.gap).2.1).2.1
          exact (List.pairwise_cons.mp hgap).1 d List.mem_cons_self
        replace hnext : k.next x.start = d.start := hnext
        unfold Span.stop at hd
        omega
    | nil =>
        cases as with
        | nil => exact ⟨ls, x, by simp, rfl⟩
        | cons d as =>
            have hdb : d.start < b := h.low_lt List.mem_cons_self
            replace hnext : k.next x.start = d.start := hnext
            omega

/-- Around the list, from the block in front of a place on. -/
theorem path_last (hcyc : Cyclic k.next ((as ++ cs).map Span.start)) {zs : List Span} {x : Span}
    (hzs : cs ++ as = zs ++ [x]) : Path k.next x.start (zs.map Span.start) x.start := by
  rw [List.map_append] at hcyc
  have hrot := cyclic_append_comm hcyc
  rw [← List.map_append, hzs, List.map_append] at hrot
  simpa using hrot.path

/-! ### `slob_free` -/

/-- A write of the length that is there changes nothing. -/
theorem setUnits_self (hb : k.units b = n) : k.setUnits b n = k := by
  subst hb
  show { k with lo := Function.update k.lo b (k.lo b) } = k
  rw [Function.update_eq_self]

/-- The merge with the block behind: the blocks `cs` lose their first one, or none. -/
theorem mergeNextSlob_spec (h : Between b n as cs)
    (hcyc : Cyclic k.next ((as ++ cs).map Span.start))
    (hunits : ∀ x ∈ as ++ cs, k.units x.start = x.len) (hb : k.units b = n)
    {zs : List Span} {x : Span} (hzs : cs ++ as = zs ++ [x])
    (hsole : cs = [x] → b + n ≠ x.start) :
    ∃ m zs' cs', mergeNextSlob k x.start b = (k.setUnits b m).setNext b
        ((zs'.map Span.start).headD x.start) ∧ n ≤ m ∧
      cs' ++ as = zs' ++ [x] ∧ (∃ a, Path k.next a (zs'.map Span.start) x.start) ∧
      Between b (m + 1) as cs' ∧ (∀ y ∈ cs', y ∈ cs) ∧
      (∀ y ∈ cs, y.start ≠ b + n → y ∈ cs') ∧
      (∀ p, cover cs' p + cover [⟨b, m⟩] p = cover cs p + cover [⟨b, n⟩] p) ∧
      total cs' + m = total cs + n := by
  have hpath := path_last hcyc hzs
  have hnext := hpath.next_eq
  unfold mergeNextSlob
  by_cases hmerge : b + k.units b = k.next x.start
  · rw [if_pos hmerge]
    rw [hb] at hmerge
    cases zs with
    | nil =>
        -- The list has one block, and `b` does not touch it.
        replace hnext : k.next x.start = x.start := hnext
        rcases h.last hzs with ⟨ls, rfl, -⟩ | ⟨-, hcs⟩
        · have hlt := h.low_lt (x := x) (by simp)
          omega
        · exact absurd (hmerge.trans hnext) (hsole hcs)
    | cons d zs =>
        replace hnext : k.next x.start = d.start := hnext
        have hdb : b + n = d.start := hmerge.trans hnext
        cases cs with
        | nil =>
            have hd := h.low_lt (x := d) (by
              rw [List.nil_append] at hzs
              simp [hzs])
            omega
        | cons e cs =>
            obtain ⟨rfl, htail⟩ := List.cons.inj hzs
            replace htail : cs ++ as = zs ++ [x] := htail
            have hd : k.next e.start = (zs.map Span.start).headD x.start := by
              rw [next_of_split hcyc, htail]
              cases zs <;> rfl
            have hgap := h.gap
            obtain ⟨-, hright, hcross⟩ := List.pairwise_append.mp hgap
            obtain ⟨hfirst, hright⟩ := List.pairwise_cons.mp hright
            refine ⟨n + e.len, zs, cs, ?_, by omega, htail, ⟨e.start, hpath.2⟩, ?_, ?_, ?_, ?_,
              ?_⟩
            · rw [hb, hnext, hd, hunits e (by simp)]
            · refine ⟨?_, ?_, by omega, h.low, ?_⟩
              · rw [List.pairwise_append]
                exact ⟨(List.pairwise_append.mp hgap).1, hright,
                  fun a ha c hc => hcross a ha c (List.mem_cons_of_mem e hc)⟩
              · intro y hy
                apply h.pos y
                simp only [List.mem_append, List.mem_cons] at hy ⊢
                tauto
              · intro y hy
                have hy' := hfirst y hy
                unfold Span.stop at hy'
                omega
            · exact fun y hy => List.mem_cons_of_mem e hy
            · intro y hy hne
              rcases List.mem_cons.mp hy with rfl | hy
              · exact absurd hdb.symm hne
              · exact hy
            · intro p
              have he : (⟨b + n, e.len⟩ : Span) = e := by rw [hdb]
              rw [cover_split, he, cover_cons_eq_add e cs]
              omega
            · rw [total_cons]
              omega
  · rw [if_neg hmerge]
    rw [hb] at hmerge
    refine ⟨n, zs, cs, by rw [setUnits_self hb, hnext], le_refl n, hzs, ⟨_, hpath⟩, ?_, fun y hy => hy,
      fun y hy _ => hy, fun p => rfl, rfl⟩
    refine ⟨h.gap, h.pos, by omega, h.low, ?_⟩
    cases cs with
    | nil => simp
    | cons d cs =>
        have hd : b + n ≠ d.start := by
          rw [hnext] at hmerge
          cases zs with
          | nil =>
              obtain ⟨rfl, -⟩ := List.cons.inj hzs
              exact hmerge
          | cons e zs =>
              obtain ⟨rfl, -⟩ := List.cons.inj hzs
              exact hmerge
        have hle := h.high d List.mem_cons_self
        intro y hy
        rcases List.mem_cons.mp hy with rfl | hy
        · omega
        · have hgap := (List.pairwise_append.mp h.gap).2.1
          have hdy := (List.pairwise_cons.mp hgap).1 y hy
          unfold Span.stop at hdy
          omega

section MergePrev

variable {m a e : Nat} {zs : List Span} {x : Span}

/-- No block of the list begins at the place. -/
theorem Between.start_ne (h : Between b n as cs) {y : Span} (hy : y ∈ as ++ cs) :
    y.start ≠ b := by
  rcases List.mem_append.mp hy with hy | hy
  · exact Nat.ne_of_lt (h.low_lt hy)
  · exact Nat.ne_of_gt (h.high_lt hy)

/-- The block in front of the place is at no other place of the list. -/
theorem Between.last_notMem (h : Between b n as cs) (hzs : cs ++ as = zs ++ [x]) :
    x.start ∉ zs.map Span.start := by
  have hnodup : ((cs ++ as).map Span.start).Nodup :=
    ((List.perm_append_comm.map Span.start).nodup_iff).mp
      ((starts_lt h.gap).imp Nat.ne_of_lt)
  rw [hzs, List.map_append] at hnodup
  intro hx
  exact (List.nodup_append.mp hnodup).2.2 x.start hx x.start (by simp) rfl

/-- No merge: the block is a new one of the list. -/
theorem insert_spec (h : Between b (m + 1) as cs) (hm : 0 < m)
    (hunits : ∀ y ∈ as ++ cs, k.units y.start = y.len) (hb : k.units b = m)
    (hzs : cs ++ as = zs ++ [x]) (hpath : Path k.next b (zs.map Span.start) x.start)
    (hne : x.stop ≠ b) :
    FreeList { k.setNext x.start b with slobfree := x.start } (as ++ ⟨b, m⟩ :: cs) := by
  have hx : x ∈ as ++ cs := by
    have hx' : x ∈ cs ++ as := by simp [hzs]
    exact List.perm_append_comm.mem_iff.mp hx'
  refine ⟨?_, ?_, ?_, ?_⟩
  · obtain ⟨hleft, hright, hcross⟩ := List.pairwise_append.mp h.gap
    refine List.pairwise_append.mpr ⟨hleft, List.pairwise_cons.mpr ⟨?_, hright⟩, ?_⟩
    · intro c hc
      have hhigh := h.high c hc
      show b + m < c.start
      omega
    · intro y hy c hc
      rcases List.mem_cons.mp hc with rfl | hc
      · show y.stop < b
        have hlow := h.low y hy
        -- The blocks in front of `x` end below its start.
        rcases h.last hzs with ⟨ls, rfl, -⟩ | ⟨rfl, -⟩
        · rcases List.mem_append.mp hy with hls | hyx
          · have hyx := (List.pairwise_append.mp hleft).2.2 y hls x (by simp)
            have hxb := h.low_lt (x := x) (by simp)
            omega
          · obtain rfl : y = x := by simpa using hyx
            omega
        · cases hy
      · exact hcross y hy c hc
  · intro y hy
    show k.units y.start = y.len ∧ 0 < y.len
    have hy' : y ∈ as ++ cs ∨ y = ⟨b, m⟩ := by
      simp only [List.mem_append, List.mem_cons] at hy ⊢
      tauto
    rcases hy' with hy' | rfl
    · exact ⟨hunits y hy', h.pos y hy'⟩
    · exact ⟨hb, hm⟩
  · rw [List.map_append, List.map_cons]
    apply Path.cyclic
    rw [← List.map_append, hzs, List.map_append]
    refine (path_append _ _ _ _ []).mpr ⟨hpath.move ?_ ?_, setNext_next_self⟩
    · exact setNext_next (Ne.symm (h.start_ne hx))
    · intro y hy
      apply setNext_next
      rintro rfl
      exact h.last_notMem hzs hy
  · obtain hx' | hx' := List.mem_append.mp hx
    · exact List.mem_map_of_mem (by simp [hx'])
    · exact List.mem_map_of_mem (by simp [hx'])

/-- The block in front of the place grows. -/
theorem grow_spec {ls : List Span} (h : Between b (m + 1) (ls ++ [x]) cs)
    (hunits : ∀ y ∈ ls ++ [x] ++ cs, k.units y.start = y.len)
    (hzs : cs ++ (ls ++ [x]) = zs ++ [x]) (hpath : Path k.next b (zs.map Span.start) x.start)
    (hstop : x.stop = b) :
    FreeList { (k.setUnits x.start (x.len + m)).setNext x.start (k.next b) with
      slobfree := x.start } (ls ++ ⟨x.start, x.len + m⟩ :: cs) := by
  have hzs' : cs ++ ls = zs := by
    rw [← List.append_assoc] at hzs
    exact (List.append_inj' hzs rfl).1
  have hnodup := (starts_lt h.gap).imp (S := (· ≠ ·)) Nat.ne_of_lt
  have hxlen := h.pos x (by simp)
  obtain ⟨hleft, hright, hcross⟩ := List.pairwise_append.mp h.gap
  obtain ⟨hls, -, hlx⟩ := List.pairwise_append.mp hleft
  -- The header that is written is that of `x`, and no other block has it.
  have hother : ∀ y ∈ ls ++ cs, y.start ≠ x.start := by
    intro y hy heq
    apply h.last_notMem hzs
    rw [← hzs', ← heq]
    exact List.mem_map_of_mem (List.perm_append_comm.mem_iff.mp hy)
  refine ⟨?_, ?_, ?_, ?_⟩
  · refine List.pairwise_append.mpr ⟨hls, List.pairwise_cons.mpr ⟨?_, hright⟩, ?_⟩
    · intro c hc
      have hhigh := h.high c hc
      unfold Span.stop at hstop ⊢
      show x.start + (x.len + m) < c.start
      omega
    · intro y hy c hc
      rcases List.mem_cons.mp hc with rfl | hc
      · exact hlx y hy x (by simp)
      · exact hcross y (by simp [hy]) c hc
  -- The sizes: only that of `x` has changed.
  · intro y hy
    show (k.setUnits x.start (x.len + m)).units y.start = y.len ∧ 0 < y.len
    have hy' : y ∈ ls ++ cs ∨ y = ⟨x.start, x.len + m⟩ := by
      simp only [List.mem_append, List.mem_cons] at hy ⊢
      tauto
    rcases hy' with hy' | rfl
    · have hmem : y ∈ ls ++ [x] ++ cs := by
        simp only [List.mem_append] at hy' ⊢
        tauto
      rw [setUnits_units (hother y hy')]
      exact ⟨hunits y hmem, h.pos y hmem⟩
    · rw [setUnits_units_self]
      exact ⟨rfl, by show 0 < x.len + m; omega⟩
  · rw [List.map_append, List.map_cons]
    apply Path.cyclic
    rw [← List.map_append, hzs']
    refine hpath.move setNext_next_self ?_
    intro y hy
    refine (setNext_next ?_).trans setUnits_next
    rintro rfl
    exact h.last_notMem hzs hy
  · exact List.mem_map.mpr ⟨⟨x.start, x.len + m⟩, by simp, rfl⟩

end MergePrev

/-- Both merges, and the list behind them. -/
theorem merge_spec (h : Between b n as cs) (hcyc : Cyclic k.next ((as ++ cs).map Span.start))
    (hunits : ∀ x ∈ as ++ cs, k.units x.start = x.len) (hb : k.units b = n) {zs : List Span}
    {x ar : Span} (hzs : cs ++ as = zs ++ [x]) (har : ar ∈ as ++ cs)
    (haway : ar.stop < b ∨ b + n < ar.start) :
    ∃ k' bs, mergePrevSlob (mergeNextSlob k x.start b) x.start b = k' ∧
      FreeList { k' with slobfree := x.start } bs ∧ k'.bigblocks = k.bigblocks ∧
      k'.runs = k.runs ∧ (∀ p, cover bs p = cover (as ++ cs) p + cover [⟨b, n⟩] p) ∧
      total bs = total (as ++ cs) + n ∧ ar ∈ bs ∧
      SameBut (b :: (as ++ cs).map Span.start) k k' := by
  have hx : x ∈ as ++ cs := by
    have hx' : x ∈ cs ++ as := by simp [hzs]
    exact List.perm_append_comm.mem_iff.mp hx'
  have hlen := h.len
  obtain ⟨m, zs', cs', hmerge, hle, hzs', ⟨a, hpath⟩, hbet, hsub, hkeep, hcover, htotal⟩ :=
    mergeNextSlob_spec h hcyc hunits hb hzs (by
      rintro rfl
      rcases h.last hzs with ⟨ls, rfl, -⟩ | ⟨rfl, -⟩
      · have hlow := h.low_lt (x := x) (by simp)
        have hhigh := h.high_lt (x := x) (by simp)
        omega
      · obtain rfl : ar = x := by simpa using har
        have hhigh := h.high_lt (x := ar) (by simp)
        unfold Span.stop at haway
        omega)
  have har' : ar ∈ as ++ cs' := by
    rcases List.mem_append.mp har with har | har
    · exact List.mem_append_left cs' har
    · refine List.mem_append_right as (hkeep ar har ?_)
      have hhigh := h.high_lt har
      unfold Span.stop at haway
      omega
  have hunits' : ∀ y ∈ as ++ cs', k.units y.start = y.len := by
    intro y hy
    apply hunits y
    rcases List.mem_append.mp hy with hy | hy
    · exact List.mem_append_left cs hy
    · exact List.mem_append_right as (hsub y hy)
  rw [hmerge]
  -- Behind the first merge, `b` leads where `a` led.
  generalize hk₁ : (k.setUnits b m).setNext b ((zs'.map Span.start).headD x.start) = k₁
  have hsame₁ : SameBut [b] k k₁ := by
    rw [← hk₁]
    exact (sameBut_setUnits.trans sameBut_setNext).mono (by simp)
  have hpath₁ : Path k₁.next b (zs'.map Span.start) x.start := by
    refine hpath.move ?_ ?_
    · rw [hpath.next_eq, ← hk₁, setNext_next_self]
    · intro y hy
      apply hsame₁.next
      obtain ⟨z, hz, rfl⟩ := List.mem_map.mp hy
      have hz' : z ∈ as ++ cs' := by
        have hz'' : z ∈ cs' ++ as := by simp [hzs', hz]
        exact List.perm_append_comm.mem_iff.mp hz''
      simpa using hbet.start_ne hz'
  have hunits₁ : ∀ y ∈ as ++ cs', k₁.units y.start = y.len := by
    intro y hy
    rw [hsame₁.units (by simpa using hbet.start_ne hy)]
    exact hunits' y hy
  have hb₁ : k₁.units b = m := by rw [← hk₁, setNext_units, setUnits_units_self]
  have hrest : k₁.bigblocks = k.bigblocks ∧ k₁.runs = k.runs := by
    rw [← hk₁]
    exact ⟨rfl, rfl⟩
  have hxs : x.start ∈ (as ++ cs).map Span.start := List.mem_map_of_mem hx
  have hx' : x ∈ as ++ cs' := by
    have hx'' : x ∈ cs' ++ as := by simp [hzs']
    exact List.perm_append_comm.mem_iff.mp hx''
  unfold mergePrevSlob
  -- Then the block in front. When it ends where `b` begins, it grows and `b` is no header any more.
  by_cases hstop : x.start + k₁.units x.start = b
  · rw [if_pos hstop, hunits₁ x hx', hb₁]
    rw [hunits₁ x hx'] at hstop
    rcases hbet.last hzs' with ⟨ls, rfl, rfl⟩ | ⟨rfl, hcs'⟩
    · refine ⟨_, ls ++ ⟨x.start, x.len + m⟩ :: cs', rfl,
        grow_spec hbet hunits₁ hzs' hpath₁ hstop, hrest.1, hrest.2, ?_, ?_, ?_, ?_⟩
      · intro p
        have hp := hcover p
        have hsplit := cover_split x.start x.len m p
        rw [show x.start + x.len = b from hstop] at hsplit
        rw [cover_append, cover_cons_eq_add, hsplit, cover_append, cover_append]
        have hxx : (⟨x.start, x.len⟩ : Span) = x := rfl
        rw [hxx]
        omega
      · simp only [total_append, total_cons, total_nil]
        omega
      · have hne : ar ≠ x := by
          rintro rfl
          unfold Span.stop at haway
          omega
        simp only [List.mem_append, List.mem_cons, List.mem_nil_iff, or_false] at har' ⊢
        tauto
      · refine (hsame₁.trans (sameBut_setUnits.trans sameBut_setNext)).mono ?_
        intro u hu
        simp only [List.mem_append, List.mem_cons, List.mem_nil_iff, or_false] at hu ⊢
        rcases hu with rfl | rfl | rfl
        · exact Or.inl rfl
        · exact Or.inr hxs
        · exact Or.inr hxs
    · have hhigh := hbet.high_lt (x := x) (by simp [hcs'])
      omega
  · rw [if_neg hstop]
    rw [hunits₁ x hx'] at hstop
    -- Otherwise `b` is linked in behind it.
    refine ⟨_, as ++ ⟨b, m⟩ :: cs', rfl, insert_spec hbet (by omega) hunits₁ hb₁ hzs' hpath₁ hstop,
      hrest.1, hrest.2, ?_, ?_, ?_, ?_⟩
    · intro p
      have hp := hcover p
      rw [cover_append, cover_cons_eq_add, cover_append]
      omega
    · simp only [total_append, total_cons]
      omega
    · simp only [List.mem_append, List.mem_cons] at har' ⊢
      tauto
    · refine (hsame₁.trans sameBut_setNext).mono ?_
      intro u hu
      simp only [List.mem_append, List.mem_cons, List.mem_nil_iff, or_false] at hu ⊢
      rcases hu with rfl | rfl
      · exact Or.inl rfl
      · exact Or.inr hxs

/-- `slob_free` of a block beside the list. -/
theorem slobFree_spec (h : FreeList k bs) (hb : b ≠ 0) {size : Nat}
    (hn : n = if size = 0 then k.units b else SLOB_UNITS size) (hpos : 0 < n)
    (hout : ∀ x ∈ bs, x.stop ≤ b ∨ b + n ≤ x.start) {ar : Span} (har : ar ∈ bs)
    (haway : ar.stop < b ∨ b + n < ar.start) {fuel : Nat} (hfuel : bs.length ≤ fuel) :
    ∃ k' bs', slobFree fuel k b size = .ok k' ∧ FreeList k' bs' ∧ k'.bigblocks = k.bigblocks ∧
      k'.runs = k.runs ∧ (∀ p, cover bs' p = cover bs p + cover [⟨b, n⟩] p) ∧
      total bs' = total bs + n ∧ ar ∈ bs' ∧ SameBut (b :: bs.map Span.start) k k' := by
  obtain ⟨as, cs, rfl, has, hcs⟩ := gap_split h.gap h.pos hout
  have hbet : Between b n as cs := ⟨h.gap, h.pos, hpos, has, hcs⟩
  unfold slobFree
  rw [if_neg hb]
  generalize hk₀ : (if size = 0 then k else k.setUnits b (SLOB_UNITS size)) = k₀
  have hsame : SameBut [b] k k₀ := by
    rw [← hk₀]
    split
    · exact fun u _ => ⟨rfl, rfl⟩
    · exact sameBut_setUnits
  have hrest : k₀.bigblocks = k.bigblocks ∧ k₀.runs = k.runs ∧ k₀.slobfree = k.slobfree ∧
      k₀.units b = n := by
    rw [← hk₀, hn]
    split <;> simp [Kmem.setUnits, Kmem.units]
  obtain ⟨hbig, hruns, hrover, hbn⟩ := hrest
  have hne : ∀ y ∈ (as ++ cs).map Span.start, y ∉ [b] := by
    intro y hy
    obtain ⟨z, hz, rfl⟩ := List.mem_map.mp hy
    simpa using hbet.start_ne hz
  have hcyc : Cyclic k₀.next ((as ++ cs).map Span.start) :=
    h.cyc.congr fun y hy => hsame.next (hne y hy)
  have hunits : ∀ y ∈ as ++ cs, k₀.units y.start = y.len := by
    intro y hy
    rw [hsame.units (hne _ (List.mem_map_of_mem hy))]
    exact (h.units y hy).1
  -- The loop starts at the rover and stops in front of the place of `b`.
  obtain ⟨zs, x, hzs⟩ : ∃ zs x, cs ++ as = zs ++ [x] := by
    rcases List.eq_nil_or_concat (cs ++ as) with hnil | ⟨zs, x, hzs⟩
    · rw [List.append_eq_nil_iff] at hnil
      rw [hnil.1, hnil.2] at har
      cases har
    · exact ⟨zs, x, by simpa using hzs⟩
  obtain ⟨ls, rs, hsplit⟩ := List.append_of_mem h.rover
  rw [hsplit] at hcyc
  have hmem : ∀ y, y ∈ k.slobfree :: (rs ++ ls) ↔ y ∈ (as ++ cs).map Span.start := by
    intro y
    rw [hsplit]
    simp only [List.mem_cons, List.mem_append]
    tauto
  have hx : x.start ∈ (as ++ cs).map Span.start := by
    apply List.mem_map_of_mem
    have hx' : x ∈ cs ++ as := by simp [hzs]
    exact List.perm_append_comm.mem_iff.mp hx'
  obtain ⟨c, hc, hok, hrun⟩ := reinsertionPoint_spec hcyc.path
    ⟨x.start, (hmem _).mpr hx, hbet.pointOk (hsplit ▸ hcyc) hzs⟩ fuel (by
      have hlen := congrArg List.length hsplit
      simp only [List.length_map, List.length_append, List.length_cons] at hlen hfuel ⊢
      omega)
  rw [← hsplit] at hcyc
  obtain ⟨zs', x', hzs', rfl⟩ := hbet.point_last hcyc ((hmem c).mp hc) hok
  obtain ⟨k', bs, hk', hlist, hbig', hruns', hcover, htotal, har', hsame'⟩ :=
    merge_spec hbet hcyc hunits hbn hzs' har haway
  refine ⟨{ k' with slobfree := x'.start }, bs, ?_, hlist, hbig'.trans hbig, hruns'.trans hruns,
    hcover, htotal, har', ?_⟩
  · show (do
      let cur ← reinsertionPoint k₀ b fuel k₀.slobfree
      return { mergePrevSlob (mergeNextSlob k₀ cur b) cur b with slobfree := cur }) = _
    rw [hrover, hrun]
    show Except.ok { mergePrevSlob (mergeNextSlob k₀ x'.start b) x'.start b with
      slobfree := x'.start } = _
    rw [hk']
  · have hsame'' := (hsame.trans hsame').mono (t := b :: (as ++ cs).map Span.start) (by simp)
    exact hsame''

/-! ### `slob_alloc` -/

/-- The search finds a block with room and the one in front of it, or there is none. -/
theorem slobSearch_spec {xs : List Nat} : ∀ {a : Nat}, Path k.next a xs k.slobfree →
    k.slobfree ∉ xs → ∀ fuel, xs.length < fuel →
    (∃ prev cur, slobSearch k n fuel a (k.next a) = .ok (some (prev, cur)) ∧ prev ∈ a :: xs ∧
      k.next prev = cur ∧ n ≤ k.units cur) ∨
    slobSearch k n fuel a (k.next a) = .ok none ∧ k.units k.slobfree < n ∧
      ∀ y ∈ xs, k.units y < n := by
  induction xs with
  | nil =>
      intro a hpath _ fuel hfuel
      obtain ⟨fuel, rfl⟩ : ∃ m, fuel = m + 1 := ⟨fuel - 1, by simp at hfuel; omega⟩
      have hnext : k.next a = k.slobfree := hpath
      unfold slobSearch
      by_cases hroom : n ≤ k.units (k.next a)
      · exact Or.inl ⟨a, k.next a, by rw [if_pos hroom], List.mem_cons_self, rfl, hroom⟩
      · refine Or.inr ⟨by rw [if_neg hroom, if_pos hnext], ?_, by simp⟩
        rw [hnext] at hroom
        omega
  | cons x xs ih =>
      intro a hpath hnot fuel hfuel
      obtain ⟨fuel, rfl⟩ : ∃ m, fuel = m + 1 := ⟨fuel - 1, by simp at hfuel; omega⟩
      have hnext : k.next a = x := hpath.1
      rw [List.mem_cons, not_or] at hnot
      unfold slobSearch
      by_cases hroom : n ≤ k.units (k.next a)
      · exact Or.inl ⟨a, k.next a, by rw [if_pos hroom], List.mem_cons_self, rfl, hroom⟩
      · rw [if_neg hroom, if_neg (by rw [hnext]; exact Ne.symm hnot.1), hnext]
        rw [hnext] at hroom
        rcases ih hpath.2 hnot.2 fuel (by simpa using hfuel) with
          ⟨prev, cur, hrun, hprev, hcur, hfit⟩ | ⟨hrun, hrover, hall⟩
        · exact Or.inl ⟨prev, cur, hrun, List.mem_cons_of_mem a hprev, hcur, hfit⟩
        · refine Or.inr ⟨hrun, hrover, ?_⟩
          intro y hy
          rcases List.mem_cons.mp hy with rfl | hy
          · omega
          · exact hall y hy

/-- The search of a free list. -/
theorem FreeList.search (h : FreeList k bs) {fuel : Nat} (hfuel : bs.length ≤ fuel) :
    (∃ as x cs prev, slobSearch k n fuel k.slobfree (k.next k.slobfree) =
        .ok (some (prev, x.start)) ∧ bs = as ++ x :: cs ∧ prev ∈ bs.map Span.start ∧
        k.next prev = x.start ∧ n ≤ x.len) ∨
      slobSearch k n fuel k.slobfree (k.next k.slobfree) = .ok none ∧ ∀ x ∈ bs, x.len < n := by
  obtain ⟨ls, rs, hsplit⟩ := List.append_of_mem h.rover
  have hcyc := h.cyc
  have hnodup := h.nodup
  rw [hsplit] at hcyc hnodup
  have hmem : ∀ y, y ∈ k.slobfree :: (rs ++ ls) ↔ y ∈ bs.map Span.start := by
    intro y
    rw [hsplit]
    simp only [List.mem_cons, List.mem_append]
    tauto
  have hnot : k.slobfree ∉ rs ++ ls := by
    have hperm : (ls ++ k.slobfree :: rs).Perm (k.slobfree :: (rs ++ ls)) :=
      List.perm_middle.trans (List.perm_append_comm.cons _)
    exact (List.nodup_cons.mp (hperm.nodup_iff.mp hnodup)).1
  have hlen : (rs ++ ls).length < fuel := by
    have hlen := congrArg List.length hsplit
    simp only [List.length_map, List.length_append, List.length_cons] at hlen ⊢
    omega
  rcases slobSearch_spec (n := n) hcyc.path hnot fuel hlen with
    ⟨prev, cur, hrun, hprev, rfl, hfit⟩ | ⟨hrun, hrover, hall⟩
  · have hprev' := (hmem prev).mp hprev
    obtain ⟨x, hx, hxs⟩ := List.mem_map.mp (h.cyc.next_mem hprev')
    obtain ⟨as, cs, rfl⟩ := List.append_of_mem hx
    rw [← hxs] at hrun hfit
    refine Or.inl ⟨as, x, cs, prev, hrun, rfl, hprev', hxs.symm, ?_⟩
    rwa [(h.units x hx).1] at hfit
  · refine Or.inr ⟨hrun, ?_⟩
    intro x hx
    have hxs := (hmem x.start).mpr (List.mem_map_of_mem hx)
    rw [← (h.units x hx).1]
    rcases List.mem_cons.mp hxs with heq | hxs
    · rw [heq]
      exact hrover
    · exact hall _ hxs

/-- What the loop of `slob_alloc` writes when a part of the block is left. -/
theorem slobTake_fragment {prev cur : Nat} (hne : k.units cur ≠ n) (hcur : cur ≠ prev) :
    slobTake k n prev cur = { (((k.setNext prev (cur + n)).setUnits (cur + n)
      (k.units cur - n)).setNext (cur + n) (k.next cur)).setUnits cur n with slobfree := prev } := by
  unfold slobTake
  rw [if_neg hne]
  simp only [setNext_units, setUnits_next, setNext_next_self, setNext_next hcur]

/-- A block of the length asked for leaves the list. -/
theorem slobTake_exact {prev cur : Nat} (heq : k.units cur = n) :
    slobTake k n prev cur = { k.setNext prev (k.next cur) with slobfree := prev } := by
  unfold slobTake
  rw [if_pos heq]

/-- The blocks beside `x` do not start in it. -/
theorem start_outside {x : Span} (hgap : (as ++ x :: cs).Pairwise fun b c => b.stop < c.start)
    {y : Span} (hy : y ∈ as ++ cs) : y.stop < x.start ∨ x.stop < y.start := by
  obtain ⟨-, hright, hcross⟩ := List.pairwise_append.mp hgap
  rcases List.mem_append.mp hy with hy | hy
  · exact Or.inl (hcross y hy x List.mem_cons_self)
  · exact Or.inr ((List.pairwise_cons.mp hright).1 y hy)

/-- A block with room gives its first `n` units. -/
theorem slobTake_spec {x ar : Span} {prev : Nat} (h : FreeList k (as ++ x :: cs))
    (hprev : prev ∈ (as ++ x :: cs).map Span.start) (hnext : k.next prev = x.start)
    (hn : 0 < n) (hfit : n ≤ x.len) (har : ar ∈ as ++ cs) :
    ∃ bs, FreeList (slobTake k n prev x.start) bs ∧
      (∀ p, cover bs p + cover [⟨x.start, n⟩] p = cover (as ++ x :: cs) p) ∧
      total bs + n = total (as ++ x :: cs) ∧ (∀ y ∈ as ++ cs, y ∈ bs) ∧
      (slobTake k n prev x.start).units x.start = n ∧
      (slobTake k n prev x.start).bigblocks = k.bigblocks ∧
      (slobTake k n prev x.start).runs = k.runs ∧
      ∃ t, (∀ u ∈ t, u ∈ x) ∧ SameBut (t ++ (as ++ x :: cs).map Span.start) k
        (slobTake k n prev x.start) := by
  have hx : x ∈ as ++ x :: cs := by simp
  have hxunits := (h.units x hx).1
  have hmem : ∀ y ∈ as ++ cs, y ∈ as ++ x :: cs := by
    intro y hy
    simp only [List.mem_append, List.mem_cons] at hy ⊢
    tauto
  -- `prev` is the start of the block in front of `x`, around the list.
  obtain ⟨zs, z, hzs⟩ : ∃ zs z, cs ++ as = zs ++ [z] := by
    rcases List.eq_nil_or_concat (cs ++ as) with hnil | ⟨zs, z, hzs⟩
    · rw [List.append_eq_nil_iff] at hnil
      rw [hnil.1, hnil.2] at har
      cases har
    · exact ⟨zs, z, by simpa using hzs⟩
  have hz : z ∈ as ++ cs := by
    have hz' : z ∈ cs ++ as := by simp [hzs]
    exact List.perm_append_comm.mem_iff.mp hz'
  have hcyc := h.cyc
  rw [List.map_append, List.map_cons] at hcyc
  have hpath := hcyc.path
  rw [← List.map_append, hzs, List.map_append] at hpath
  obtain ⟨hpath, hlast⟩ := (path_append _ _ _ _ []).mp hpath
  obtain rfl : prev = z.start := h.cyc.next_inj h.nodup hprev
    (List.mem_map_of_mem (hmem z hz)) (hnext.trans hlast.symm)
  -- The other blocks lie clear of `x`, so a header written inside of it is none of theirs.
  have hout : ∀ y ∈ as ++ cs, y.stop < x.start ∨ x.stop < y.start := fun y hy =>
    start_outside h.gap hy
  have hpos : ∀ y ∈ as ++ cs, 0 < y.len := fun y hy => h.pos y (hmem y hy)
  have hzs' : ∀ y ∈ zs.map Span.start, y ≠ z.start := by
    intro y hy heq
    have hnodup : ((cs ++ as).map Span.start).Nodup := by
      have hsub : (as ++ cs).Sublist (as ++ x :: cs) :=
        (List.Sublist.refl as).append (List.sublist_cons_self x cs)
      exact ((List.perm_append_comm.map Span.start).nodup_iff).mp
        (h.nodup.sublist (hsub.map Span.start))
    rw [hzs, List.map_append] at hnodup
    exact (List.nodup_append.mp hnodup).2.2 y hy z.start (by simp) heq
  obtain ⟨hleft, hright, hcross⟩ := List.pairwise_append.mp h.gap
  obtain ⟨hxcs, hright⟩ := List.pairwise_cons.mp hright
  -- `if (cur->units == units)`: the block goes as a whole, and the list is unlinked around it.
  by_cases heq : x.len = n
  · have htake : slobTake k n z.start x.start = _ := slobTake_exact (hxunits.trans heq)
    rw [htake]
    refine ⟨as ++ cs, ⟨?_, ?_, ?_, ?_⟩, ?_, ?_, fun y hy => hy, hxunits.trans heq, rfl, rfl,
      [], by simp, ?_⟩
    · exact List.pairwise_append.mpr ⟨hleft, hright,
        fun y hy c hc => hcross y hy c (List.mem_cons_of_mem x hc)⟩
    · intro y hy
      exact h.units y (hmem y hy)
    · rw [List.map_append]
      apply cyclic_append_comm
      rw [← List.map_append, hzs, List.map_append]
      apply Path.cyclic
      refine hpath.move setNext_next_self ?_
      intro y hy
      exact setNext_next (hzs' y hy)
    · exact List.mem_map_of_mem hz
    · intro p
      have hxx : (⟨x.start, n⟩ : Span) = x := by rw [← heq]
      rw [hxx, cover_append, cover_append, cover_cons_eq_add x cs]
      omega
    · simp only [total_append, total_cons]
      omega
    · have hsame : SameBut [z.start] k (k.setNext z.start (k.next x.start)) := sameBut_setNext
      refine hsame.mono ?_
      intro u hu
      rw [List.mem_singleton] at hu
      rw [hu]
      exact List.mem_map_of_mem (hmem z hz)
  -- The block is split: the front is handed out, and a block of the rest takes its place in the
  -- list.
  · have hxz : x.start ≠ z.start := by
      have hz' := hout z hz
      have hzlen := hpos z hz
      unfold Span.stop at hz'
      omega
    have htake : slobTake k n z.start x.start = _ :=
      slobTake_fragment (by rwa [hxunits]) hxz
    rw [htake, hxunits]
    have hstarts : ∀ y ∈ as ++ cs, y.start ≠ x.start ∧ y.start ≠ x.start + n := by
      intro y hy
      have hy' := hout y hy
      have hylen := hpos y hy
      unfold Span.stop at hy'
      omega
    refine ⟨as ++ ⟨x.start + n, x.len - n⟩ :: cs, ⟨?_, ?_, ?_, ?_⟩, ?_, ?_, ?_, ?_, rfl, rfl,
      [x.start + n], ?_, ?_⟩
    · refine List.pairwise_append.mpr ⟨hleft, List.pairwise_cons.mpr ⟨?_, hright⟩, ?_⟩
      · intro c hc
        have hc' := hxcs c hc
        unfold Span.stop at hc' ⊢
        show x.start + n + (x.len - n) < c.start
        omega
      · intro y hy c hc
        rcases List.mem_cons.mp hc with rfl | hc
        · have hy' := hcross y hy x List.mem_cons_self
          show y.stop < x.start + n
          omega
        · exact hcross y hy c (List.mem_cons_of_mem x hc)
    · intro y hy
      have hy' : y ∈ as ++ cs ∨ y = ⟨x.start + n, x.len - n⟩ := by
        simp only [List.mem_append, List.mem_cons] at hy ⊢
        tauto
      rcases hy' with hy' | rfl
      · obtain ⟨h1, h2⟩ := hstarts y hy'
        refine ⟨?_, hpos y hy'⟩
        refine (setUnits_units h1).trans ?_
        rw [setNext_units, setUnits_units h2]
        exact (h.units y (hmem y hy')).1
      · refine ⟨?_, by show 0 < x.len - n; omega⟩
        refine (setUnits_units (by show x.start + n ≠ x.start; omega)).trans ?_
        rw [setNext_units, setUnits_units_self]
    · have hzz : z.start ≠ x.start + n := (hstarts z hz).2
      rw [List.map_append, List.map_cons]
      apply Path.cyclic
      rw [← List.map_append, hzs, List.map_append]
      refine (path_append _ _ _ _ []).mpr ⟨hpath.move setNext_next_self ?_, ?_⟩
      · intro y hy
        have hy' : y ≠ x.start + n := by
          obtain ⟨w, hw, rfl⟩ := List.mem_map.mp hy
          have hw' : w ∈ cs ++ as := by simp [hzs, hw]
          exact (hstarts w (List.perm_append_comm.mem_iff.mp hw')).2
        exact (setNext_next hy').trans (setNext_next (hzs' y hy))
      · exact (setNext_next hzz).trans setNext_next_self
    · exact List.mem_map_of_mem (List.mem_append.mpr
        ((List.mem_append.mp hz).imp_right (List.mem_cons_of_mem _)))
    · intro p
      have hsplit := cover_split x.start n (x.len - n) p
      rw [Nat.add_sub_cancel' hfit] at hsplit
      have hxx : (⟨x.start, x.len⟩ : Span) = x := rfl
      rw [hxx] at hsplit
      rw [cover_append, cover_append, cover_cons_eq_add x cs, cover_cons_eq_add _ cs, hsplit]
      omega
    · simp only [total_append, total_cons]
      omega
    · intro y hy
      simp only [List.mem_append, List.mem_cons] at hy ⊢
      tauto
    · exact setUnits_units_self
    · intro u hu
      rw [List.mem_singleton] at hu
      simp only [Span.mem_iff]
      omega
    · refine (((sameBut_setNext.trans sameBut_setUnits).trans sameBut_setNext).trans
        sameBut_setUnits).mono ?_
      intro u hu
      simp only [List.mem_append, List.mem_cons, List.mem_nil_iff, or_false] at hu
      rcases hu with ((rfl | rfl) | rfl) | rfl
      · exact List.mem_cons_of_mem _ (List.mem_map_of_mem (hmem z hz))
      · exact List.mem_cons_self
      · exact List.mem_cons_self
      · exact List.mem_cons_of_mem _ (List.mem_map_of_mem hx)

end Ucore.Proofs.Mm
