import Ucore.Fs.Bitmap

/-!
# `Ucore.Proofs.Fs.Bitmap`: the bitmap is a set of free indices

`Represents nbits bitmap free` says that the bits of the words are the finite set `free` of indices
below `nbits`. `bitmap_create` makes the set of all of them, since it clears the bits behind
`nbits`; each call is then an operation on the set.

A bit that is set is a free index. `bitmap_alloc` looks for the first word that is not zero and for
the first bit in it that is set, so it takes the least index (`Represents.alloc`). `bitmap_free`
sets a bit, and asserts that it was not set (`Represents.release`).

The number of bits need not be a multiple of the width of a word. The bits of the last word that are
left over must never be allocated, and `markedBitmap_represents` shows that they are cleared at the
beginning. From then on they are not in the set, and no call puts them there.

`bitmap_is_set` states this of every run in which only indices that are held are freed.
-/

set_option autoImplicit false

namespace Ucore.Proofs.Fs

open Ucore.Fs

variable {bitmap bitmap' : Bitmap} {nbits i : Nat} {free : Finset Nat}

/-- The bits of the bitmap are a set of indices below `nbits`. -/
structure Represents (nbits : Nat) (bitmap : Bitmap) (free : Finset Nat) : Prop where
  size : bitmap.nbits = nbits
  words : nbits ≤ bitmap.nwords * 32
  bits : ∀ i, i < bitmap.nwords * 32 → (bitmap.isFree i = true ↔ i ∈ free)
  inside : ∀ i ∈ free, i < nbits

/-! ### `bitmap_create` -/

/-- The marked bits change, and the others stay. -/
theorem getLsbD_bitmap_mark : ∀ (n overbits : Nat) (word : BitVec 32), overbits + n ≤ 32 →
    ∀ i, i < 32 → (bitmap_mark word n overbits).getLsbD i =
      (word.getLsbD i ^^ decide (overbits ≤ i ∧ i < overbits + n)) := by
  intro n
  induction n with
  | zero =>
      intro overbits word _ i _
      simp only [bitmap_mark, Nat.add_zero]
      rw [decide_eq_false (by omega), Bool.xor_false]
  | succ n ih =>
      intro overbits word hle i hi
      rw [bitmap_mark, ih (overbits + 1) _ (by omega) i hi, BitVec.getLsbD_xor,
        getLsbD_bitMask hi, Bool.xor_assoc]
      congr 1
      by_cases hio : i = overbits
      · subst hio
        simp
      · by_cases hlt : overbits + 1 ≤ i
        · simp [hio, hlt, show overbits ≤ i by omega,
            show i < overbits + 1 + n ↔ i < overbits + (n + 1) by omega]
        · simp [hio, show ¬ overbits + 1 ≤ i by omega, show ¬ overbits ≤ i by omega]

/-- The bitmap of `bitmap_create` before it marks the leftover bits. -/
def fullBitmap (mem : Nat → BitVec 32) (nbits : Nat) : Bitmap where
  nbits := nbits
  nwords := (nbits + 31) / 32
  map := fun ix => if ix < (nbits + 31) / 32 then BitVec.allOnes 32 else mem ix

/-- The bitmap of `bitmap_create` when the last word has leftover bits. -/
def markedBitmap (mem : Nat → BitVec 32) (nbits : Nat) : Bitmap :=
  { fullBitmap mem nbits with
    map := Function.update (fullBitmap mem nbits).map ((nbits + 31) / 32 - 1)
      (bitmap_mark ((fullBitmap mem nbits).map ((nbits + 31) / 32 - 1))
        (32 - (nbits - ((nbits + 31) / 32 - 1) * 32))
        (nbits - ((nbits + 31) / 32 - 1) * 32)) }

/-- All bits of the words are 1. -/
theorem fullBitmap_word (mem : Nat → BitVec 32) {i ix : Nat} (hix : ix < (nbits + 31) / 32)
    (hi : i < 32) : ((fullBitmap mem nbits).map ix).getLsbD i = true := by
  unfold fullBitmap
  dsimp only
  rw [if_pos hix, BitVec.getLsbD_allOnes]
  exact decide_eq_true hi

/-- A new bitmap of whole words is the set of all indices. -/
theorem fullBitmap_represents (mem : Nat → BitVec 32) (hwhole : nbits = (nbits + 31) / 32 * 32) :
    Represents nbits (fullBitmap mem nbits) (Finset.range nbits) where
  size := rfl
  words := Nat.le_of_eq hwhole
  bits := fun i hi => by
    replace hi : i < (nbits + 31) / 32 * 32 := hi
    unfold Bitmap.isFree
    rw [fullBitmap_word mem (by omega) (by omega), Finset.mem_range]
    simp only [true_iff]
    omega
  inside := fun i hi => Finset.mem_range.mp hi

/-- A new bitmap is the set of all indices, with the bits behind the last one marked. -/
theorem markedBitmap_represents (mem : Nat → BitVec 32) :
    Represents nbits (markedBitmap mem nbits) (Finset.range nbits) where
  size := rfl
  words := by
    show nbits ≤ (nbits + 31) / 32 * 32
    omega
  bits := fun i hi => by
    replace hi : i < (nbits + 31) / 32 * 32 := hi
    unfold Bitmap.isFree markedBitmap
    dsimp only
    by_cases hlast : i / 32 = (nbits + 31) / 32 - 1
    · -- the bits of the last word from `nbits` on have been marked
      rw [hlast, Function.update_self, getLsbD_bitmap_mark _ _ _ (by omega) _ (by omega),
        fullBitmap_word mem (by omega) (by omega)]
      simp only [Finset.mem_range, Bool.true_xor, Bool.not_eq_true', decide_eq_false_iff_not]
      omega
    · rw [Function.update_of_ne hlast, fullBitmap_word mem (by omega) (by omega)]
      simp only [Finset.mem_range, true_iff]
      omega
  inside := fun i hi => Finset.mem_range.mp hi

/-- All indices below `nbits` are free in the new bitmap, and no other one. -/
theorem bitmap_create_eq (hpos : 0 < nbits) (mem : Nat → BitVec 32) :
    ∃ bitmap, Represents nbits bitmap (Finset.range nbits) ∧
      ∀ kmalloc, bitmap_create mem kmalloc nbits =
        .ok (if kmalloc = (true, true) then some bitmap else none) := by
  have hassert : ¬ ¬ (nbits ≠ 0 ∧ nbits < nbits + 32) := by omega
  by_cases hwhole : nbits = (nbits + 31) / 32 * 32
  · refine ⟨_, fullBitmap_represents mem hwhole, ?_⟩
    rintro ⟨b, c⟩
    unfold bitmap_create
    rw [if_neg hassert]
    cases b <;> cases c
    · rfl
    · rfl
    · rfl
    · exact if_neg (not_not.mpr hwhole)
  · refine ⟨_, markedBitmap_represents mem, ?_⟩
    rintro ⟨b, c⟩
    unfold bitmap_create
    rw [if_neg hassert]
    cases b <;> cases c
    · rfl
    · rfl
    · rfl
    · dsimp only
      rw [if_neg (by simp), if_neg (by simp), if_pos hwhole, if_neg (by omega), if_neg (by omega)]
      rfl

/-! ### The calls -/

/-- `bitmap_test` agrees with the set. -/
theorem Represents.test (h : Represents nbits bitmap free) (hi : i < nbits) :
    bitmap_test bitmap i = .ok (decide (i ∈ free)) := by
  have hbit := h.bits i (lt_of_lt_of_le hi h.words)
  rw [bitmap_test_eq (by rw [h.size]; exact hi)]
  congr 1
  rw [Bool.eq_iff_iff, decide_eq_true_iff]
  exact hbit

/-- What `bitmap_alloc` does to the set: the least index goes, when there is one. -/
inductive LeastTaken (nbits : Nat) (free : Finset Nat) : Option (Nat × Bitmap) → Prop
  | full (h : free = ∅) : LeastTaken nbits free none
  | took (h : free.Nonempty) (bitmap' : Bitmap)
      (h' : Represents nbits bitmap' (free.erase (free.min' h))) :
      LeastTaken nbits free (some (free.min' h, bitmap'))

/-- `bitmap_alloc` takes the least index of the set, or there is none. -/
theorem Represents.alloc (h : Represents nbits bitmap free) :
    ∃ r, bitmap_alloc bitmap = .ok r ∧ LeastTaken nbits free r := by
  obtain ⟨r, hok, hr⟩ := bitmap_alloc_eq bitmap
  refine ⟨r, hok, ?_⟩
  have hlimit : ∀ j ∈ free, j < bitmap.nwords * 32 :=
    fun j hj => lt_of_lt_of_le (h.inside j hj) h.words
  cases hr with
  | none hnone =>
      refine .full (Finset.eq_empty_of_forall_notMem fun j hj => ?_)
      have hset := (h.bits j (hlimit j hj)).mpr hj
      rw [hnone j (Nat.zero_le j) (hlimit j hj)] at hset
      cases hset
  | some index bitmap' hlt hfree hfirst hbits hwords hafter =>
      have hmem : index ∈ free := (h.bits index hlt).mp hfree
      have hne : free.Nonempty := ⟨index, hmem⟩
      have hmin : free.min' hne = index := by
        apply le_antisymm (Finset.min'_le free index hmem)
        apply Finset.le_min'
        intro j hj
        by_contra hlt'
        have hset := (h.bits j (hlimit j hj)).mpr hj
        rw [hfirst j (Nat.zero_le j) (by omega)] at hset
        cases hset
      have htook : Represents nbits bitmap' (free.erase index) := by
        refine ⟨hbits.trans h.size, hwords ▸ h.words, fun j hj => ?_, fun j hj => ?_⟩
        · rw [hafter, Finset.mem_erase]
          by_cases hji : j = index
          · simp [hji]
          · rw [Function.update_of_ne hji, h.bits j (hwords ▸ hj)]
            simp [hji]
        · exact h.inside j (Finset.mem_of_mem_erase hj)
      subst hmin
      exact .took hne bitmap' htook

/-- `bitmap_free` adds an index that is not free. -/
theorem Represents.release (h : Represents nbits bitmap free) (hi : i < nbits) (hused : i ∉ free) :
    ∃ bitmap', bitmap_free bitmap i = .ok bitmap' ∧ Represents nbits bitmap' (insert i free) := by
  have hbit : bitmap.isFree i = false := by
    rw [Bool.eq_false_iff]
    exact fun hset => hused ((h.bits i (lt_of_lt_of_le hi h.words)).mp hset)
  obtain ⟨bitmap', hok, hbits, hwords, hafter⟩ := bitmap_free_eq (by rw [h.size]; exact hi) hbit
  refine ⟨bitmap', hok, hbits.trans h.size, hwords ▸ h.words, fun j hj => ?_, fun j hj => ?_⟩
  · rw [hafter, Finset.mem_insert]
    by_cases hji : j = i
    · simp [hji]
    · rw [Function.update_of_ne hji, h.bits j (hwords ▸ hj)]
      simp [hji]
  · rcases Finset.mem_insert.mp hj with rfl | hj
    · exact hi
    · exact h.inside j hj

/-! ### Runs -/

/-- A bitmap and the indices that have been allocated and not freed. -/
structure BitmapSys where
  bitmap : Bitmap
  held : List Nat

/-- The states that calls lead to, when only indices that are held are freed. -/
inductive BitmapRun (bitmap : Bitmap) : BitmapSys → Prop
  | create : BitmapRun bitmap ⟨bitmap, []⟩
  | alloc {s : BitmapSys} {index : Nat} {bitmap' : Bitmap} (hs : BitmapRun bitmap s)
      (hok : bitmap_alloc s.bitmap = .ok (some (index, bitmap'))) :
      BitmapRun bitmap ⟨bitmap', index :: s.held⟩
  | noMem {s : BitmapSys} (hs : BitmapRun bitmap s) (hok : bitmap_alloc s.bitmap = .ok none) :
      BitmapRun bitmap s
  | free {s : BitmapSys} {index : Nat} {bitmap' : Bitmap} (hs : BitmapRun bitmap s)
      (hheld : index ∈ s.held) (hok : bitmap_free s.bitmap index = .ok bitmap') :
      BitmapRun bitmap ⟨bitmap', s.held.erase index⟩

/-- The bitmap is the set of the indices that nobody holds, and each call is the operation on this
set, without a failed assertion. -/
structure BehavesAsSet (nbits : Nat) (s : BitmapSys) (free : Finset Nat) : Prop where
  mem : ∀ i, i ∈ free ↔ i < nbits ∧ i ∉ s.held
  held : s.held.Nodup ∧ ∀ i ∈ s.held, i < nbits
  state : Represents nbits s.bitmap free
  test : ∀ i < nbits, bitmap_test s.bitmap i = .ok (decide (i ∈ free))
  alloc : ∃ r, bitmap_alloc s.bitmap = .ok r ∧ LeastTaken nbits free r
  release : ∀ i ∈ s.held, ∃ bitmap', bitmap_free s.bitmap i = .ok bitmap' ∧
    Represents nbits bitmap' (insert i free)

/-- The indices that are held are those not in the set. -/
theorem BehavesAsSet.of_represents {s : BitmapSys} (h : Represents nbits s.bitmap free)
    (hmem : ∀ i, i ∈ free ↔ i < nbits ∧ i ∉ s.held)
    (hheld : s.held.Nodup ∧ ∀ i ∈ s.held, i < nbits) : BehavesAsSet nbits s free where
  mem := hmem
  held := hheld
  state := h
  test := fun _ hi => h.test hi
  alloc := h.alloc
  release := fun i hi => h.release (hheld.2 i hi) fun hfree => ((hmem i).mp hfree).2 hi

/-- Each call keeps this. -/
theorem behavesAsSet_of_run (h : Represents nbits bitmap (Finset.range nbits)) {s : BitmapSys}
    (hrun : BitmapRun bitmap s) : ∃ free, BehavesAsSet nbits s free := by
  induction hrun with
  | create => exact ⟨_, .of_represents h (by simp) (by simp)⟩
  | @alloc s index bitmap' _ hok ih =>
      obtain ⟨free, hset⟩ := ih
      obtain ⟨r, hok', hr⟩ := hset.alloc
      obtain rfl := Except.ok.inj (hok.symm.trans hok')
      cases hr with
      | took hne _ htook =>
          have hleast := (hset.mem _).mp (free.min'_mem hne)
          refine ⟨_, .of_represents htook (fun i => ?_) ⟨?_, fun i hi => ?_⟩⟩
          · rw [Finset.mem_erase, hset.mem, List.mem_cons, not_or]
            tauto
          · exact List.nodup_cons.mpr ⟨hleast.2, hset.held.1⟩
          · rcases List.mem_cons.mp hi with rfl | hi
            · exact hleast.1
            · exact hset.held.2 i hi
  | noMem _ _ ih => exact ih
  | @free s index bitmap' _ hheld hok ih =>
      obtain ⟨free, hset⟩ := ih
      obtain ⟨b, hok', hrel⟩ := hset.release index hheld
      obtain rfl := Except.ok.inj (hok.symm.trans hok')
      refine ⟨_, .of_represents hrel (fun i => ?_) ⟨hset.held.1.erase _, fun i hi => ?_⟩⟩
      · rw [Finset.mem_insert, hset.mem, hset.held.1.mem_erase_iff]
        by_cases hi : i = index
        · simp [hi, hset.held.2 index hheld]
        · simp [hi]
      · exact hset.held.2 i (List.mem_of_mem_erase hi)

/-- `bitmap_create` returns for every number of bits, and the bitmap behaves as a set of free
indices in every run. -/
theorem bitmap_is_set (mem : Nat → BitVec 32) (hpos : 0 < nbits) :
    ∃ bitmap, (∀ kmalloc, bitmap_create mem kmalloc nbits =
        .ok (if kmalloc = (true, true) then some bitmap else none)) ∧
      ∀ s, BitmapRun bitmap s → ∃ free, BehavesAsSet nbits s free := by
  obtain ⟨bitmap, hbitmap, hcreate⟩ := bitmap_create_eq hpos mem
  exact ⟨bitmap, hcreate, fun s hrun => behavesAsSet_of_run hbitmap hrun⟩

/-- One bit more than a word has. -/
theorem bitmap_is_set_of_33 :
    ∃ bitmap, (∀ kmalloc, bitmap_create (fun _ => 0) kmalloc 33 =
        .ok (if kmalloc = (true, true) then some bitmap else none)) ∧
      ∀ s, BitmapRun bitmap s → ∃ free, BehavesAsSet 33 s free :=
  bitmap_is_set (fun _ => 0) (by decide)

end Ucore.Proofs.Fs
