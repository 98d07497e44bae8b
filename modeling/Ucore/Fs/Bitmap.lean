import Mathlib

/-!
# `Ucore.Fs.Bitmap`: the bitmap of `bitmap.c`

A bitmap is an array of words. A bit that is set stands for a free index. `bitmap_create` marks the
bits behind the last index as in use. `bitmap_alloc` takes the first free index, in the order of the
words and of the bits in a word.

`bitmap_create` allocates the two parts and can fail, `bitmap_test` and `bitmap_free` assert that
the index is in range, and `bitmap_free` that it was in use. A word is a `BitVec 32`, so that the
shifts and masks are those of the source. The number of words is rounded up with 64-bit arithmetic.

The comment of the source calls the bit that is looked for cleared. The code looks for one that is
set.
-/

set_option autoImplicit false

namespace Ucore.Fs

/-- A `struct bitmap`. -/
structure Bitmap where
  nbits : Nat
  nwords : Nat
  map : Nat → BitVec 32

/-- `1 << offset` -/
def bitMask (offset : Nat) : BitVec 32 := 1#32 <<< offset

/-- The loop of `bitmap_create` that marks the leftover bits as in use: `n` bits of a word from
`overbits` on. -/
def bitmap_mark (word : BitVec 32) : Nat → Nat → BitVec 32
  | 0, _ => word
  | n + 1, overbits => bitmap_mark (word ^^^ bitMask overbits) n (overbits + 1)

/-- `bitmap_create`. `kmalloc` says whether its two allocations find memory, and `mem` what
is behind the words. `none` is `NULL`, and an error is an assertion. -/
def bitmap_create (mem : Nat → BitVec 32) (kmalloc : Bool × Bool) (nbits : Nat) :
    Except Unit (Option Bitmap) :=
  -- the sum has 64 bits
  if ¬ (nbits ≠ 0 ∧ nbits < nbits + 32) then .error ()
  else if kmalloc.1 = false then .ok none
  else
    let nwords := (nbits + 31) / 32
    if kmalloc.2 = false then .ok none
    else
      let bitmap : Bitmap :=
        { nbits := nbits
          nwords := nwords
          map := fun ix => if ix < nwords then BitVec.allOnes 32 else mem ix }
      if nbits ≠ nwords * 32 then
        let ix := nwords - 1
        let overbits := nbits - ix * 32
        if nbits / 32 ≠ ix then .error ()
        else if ¬ (0 < overbits ∧ overbits < 32) then .error ()
        else
          .ok (some { bitmap with
            map := Function.update bitmap.map ix
              (bitmap_mark (bitmap.map ix) (32 - overbits) overbits) })
      else .ok (some bitmap)

/-- The inner loop of `bitmap_alloc`: the first bit of a word from `offset` on, among `n`. -/
def bitmap_alloc_bit (word : BitVec 32) : Nat → Nat → Option Nat
  | 0, _ => none
  | n + 1, offset =>
      if word &&& bitMask offset ≠ 0 then some offset else bitmap_alloc_bit word n (offset + 1)

/-- The outer loop of `bitmap_alloc`, over `n` words from `ix` on. `none` is `-E_NO_MEM`,
and an error the assertion behind the inner loop. -/
def bitmap_alloc_word (bitmap : Bitmap) : Nat → Nat → Except Unit (Option (Nat × Bitmap))
  | 0, _ => .ok none
  | n + 1, ix =>
      if bitmap.map ix ≠ 0 then
        match bitmap_alloc_bit (bitmap.map ix) 32 0 with
        | some offset =>
            .ok (some (ix * 32 + offset, { bitmap with
              map := Function.update bitmap.map ix (bitmap.map ix ^^^ bitMask offset) }))
        | none => .error ()
      else bitmap_alloc_word bitmap n (ix + 1)

/-- `bitmap_alloc` -/
def bitmap_alloc (bitmap : Bitmap) : Except Unit (Option (Nat × Bitmap)) :=
  bitmap_alloc_word bitmap bitmap.nwords 0

/-- `bitmap_test`. An error is the assertion of `bitmap_translate`. -/
def bitmap_test (bitmap : Bitmap) (index : Nat) : Except Unit Bool :=
  if index < bitmap.nbits then
    .ok (bitmap.map (index / 32) &&& bitMask (index % 32) ≠ 0)
  else .error ()

/-- `bitmap_free`. An error is an assertion. -/
def bitmap_free (bitmap : Bitmap) (index : Nat) : Except Unit Bitmap :=
  if index < bitmap.nbits then
    if bitmap.map (index / 32) &&& bitMask (index % 32) ≠ 0 then .error ()
    else .ok { bitmap with
      map := Function.update bitmap.map (index / 32)
        (bitmap.map (index / 32) ||| bitMask (index % 32)) }
  else .error ()

/-! ### The bits -/

/-- The bit of an index is set. -/
def Bitmap.isFree (bitmap : Bitmap) (index : Nat) : Bool :=
  (bitmap.map (index / 32)).getLsbD (index % 32)

/-- The mask has one bit. -/
theorem getLsbD_bitMask {offset i : Nat} (h : i < 32) :
    (bitMask offset).getLsbD i = decide (i = offset) := by
  unfold bitMask
  rw [BitVec.getLsbD_shiftLeft, BitVec.getLsbD_one]
  by_cases hi : i = offset
  · subst hi
    simp [h]
  · by_cases hlt : i < offset
    · simp [hi, hlt]
    · have hne : i - offset ≠ 0 := by omega
      simp [hi, hne]

/-- The mask tests one bit. -/
theorem and_bitMask_ne_zero {word : BitVec 32} {offset : Nat} (h : offset < 32) :
    word &&& bitMask offset ≠ 0 ↔ word.getLsbD offset = true := by
  constructor
  · intro hne
    by_contra hbit
    rw [Bool.not_eq_true] at hbit
    apply hne
    apply BitVec.eq_of_getLsbD_eq
    intro i hi
    rw [BitVec.getLsbD_and, getLsbD_bitMask hi]
    by_cases hio : i = offset
    · subst hio
      simp [hbit]
    · simp [hio]
  · intro hbit hzero
    have hand := congrArg (fun w => w.getLsbD offset) hzero
    simp only [BitVec.getLsbD_and, getLsbD_bitMask h, hbit, decide_true, Bool.and_true] at hand
    simp at hand

/-- The free indices after one word has changed. -/
theorem Bitmap.isFree_update (bitmap : Bitmap) (index : Nat) (word : BitVec 32) (b : Bool)
    (hself : word.getLsbD (index % 32) = b)
    (hother : ∀ i, i < 32 → i ≠ index % 32 →
      word.getLsbD i = (bitmap.map (index / 32)).getLsbD i) :
    ({ bitmap with map := Function.update bitmap.map (index / 32) word } : Bitmap).isFree =
      Function.update bitmap.isFree index b := by
  funext i
  show (Function.update bitmap.map (index / 32) word (i / 32)).getLsbD (i % 32) = _
  unfold Bitmap.isFree
  by_cases hi : i = index
  · subst hi
    rw [Function.update_self, Function.update_self, hself]
  · rw [Function.update_of_ne hi]
    by_cases hword : i / 32 = index / 32
    · rw [hword, Function.update_self]
      exact hother (i % 32) (Nat.mod_lt _ (by decide)) (by omega)
    · rw [Function.update_of_ne hword]

/-- `bitmap_test` of an index in range is whether the bit is 1. -/
theorem bitmap_test_eq {bitmap : Bitmap} {index : Nat} (h : index < bitmap.nbits) :
    bitmap_test bitmap index = .ok (bitmap.isFree index) := by
  unfold bitmap_test Bitmap.isFree
  rw [if_pos h]
  congr 1
  rw [Bool.eq_iff_iff, decide_eq_true_iff]
  exact and_bitMask_ne_zero (Nat.mod_lt _ (by decide))

/-- An index in use is freed. -/
theorem bitmap_free_eq {bitmap : Bitmap} {index : Nat} (h : index < bitmap.nbits)
    (hused : bitmap.isFree index = false) :
    ∃ bitmap', bitmap_free bitmap index = .ok bitmap' ∧ bitmap'.nbits = bitmap.nbits ∧
      bitmap'.nwords = bitmap.nwords ∧
      bitmap'.isFree = Function.update bitmap.isFree index true := by
  have hmod : index % 32 < 32 := Nat.mod_lt _ (by decide)
  have hbit : ¬ (bitmap.map (index / 32) &&& bitMask (index % 32) ≠ 0) := by
    rw [and_bitMask_ne_zero hmod]
    unfold Bitmap.isFree at hused
    rw [hused]
    decide
  unfold bitmap_free
  rw [if_pos h, if_neg hbit]
  refine ⟨_, rfl, rfl, rfl, Bitmap.isFree_update _ _ _ _ ?_ ?_⟩
  · rw [BitVec.getLsbD_or, getLsbD_bitMask hmod]
    simp
  · intro i hi hne
    rw [BitVec.getLsbD_or, getLsbD_bitMask hi]
    simp [hne]

/-- The loop over the bits finds the first bit that is 1. -/
theorem bitmap_alloc_bit_some {word : BitVec 32} {n offset o : Nat} (hn : offset + n ≤ 32)
    (h : bitmap_alloc_bit word n offset = some o) :
    offset ≤ o ∧ o < offset + n ∧ word.getLsbD o = true ∧
      ∀ i, offset ≤ i → i < o → word.getLsbD i = false := by
  induction n generalizing offset with
  | zero => cases h
  | succ n ih =>
      unfold bitmap_alloc_bit at h
      split at h
      · rename_i hbit
        cases h
        exact ⟨le_refl _, by omega, (and_bitMask_ne_zero (by omega)).mp hbit,
          fun i hi hi' => by omega⟩
      · rename_i hbit
        rw [and_bitMask_ne_zero (by omega), Bool.not_eq_true] at hbit
        obtain ⟨hle, hlt, hset, hfirst⟩ := ih (by omega) h
        refine ⟨by omega, by omega, hset, fun i hi hi' => ?_⟩
        by_cases hio : i = offset
        · rw [hio]
          exact hbit
        · exact hfirst i (by omega) hi'

/-- The loop over the bits finds none when all are 0. -/
theorem bitmap_alloc_bit_none {word : BitVec 32} {n offset : Nat} (hn : offset + n ≤ 32)
    (h : bitmap_alloc_bit word n offset = none) :
    ∀ i, offset ≤ i → i < offset + n → word.getLsbD i = false := by
  induction n generalizing offset with
  | zero =>
      intro i hi hi'
      omega
  | succ n ih =>
      unfold bitmap_alloc_bit at h
      split at h
      · cases h
      · rename_i hbit
        rw [and_bitMask_ne_zero (by omega), Bool.not_eq_true] at hbit
        intro i hi hi'
        by_cases hio : i = offset
        · rw [hio]
          exact hbit
        · exact ih (by omega) h i (by omega) (by omega)

/-- The result of an allocation: nothing when no index is free, and else the first free
index, which is then in use. -/
inductive AllocResult (bitmap : Bitmap) (first limit : Nat) : Option (Nat × Bitmap) → Prop
  | none (h : ∀ i, first ≤ i → i < limit → bitmap.isFree i = false) :
      AllocResult bitmap first limit none
  | some (index : Nat) (bitmap' : Bitmap) (hlt : index < limit)
      (hfree : bitmap.isFree index = true)
      (hfirst : ∀ i, first ≤ i → i < index → bitmap.isFree i = false)
      (hbits : bitmap'.nbits = bitmap.nbits) (hwords : bitmap'.nwords = bitmap.nwords)
      (hafter : bitmap'.isFree = Function.update bitmap.isFree index false) :
      AllocResult bitmap first limit (some (index, bitmap'))

/-- The loop over the words clears the first bit that is 1, or finds none. -/
theorem bitmap_alloc_word_eq (bitmap : Bitmap) (n ix : Nat) :
    ∃ r, bitmap_alloc_word bitmap n ix = .ok r ∧
      AllocResult bitmap (ix * 32) ((ix + n) * 32) r := by
  induction n generalizing ix with
  | zero =>
      exact ⟨none, rfl, .none fun i hi hi' => by omega⟩
  | succ n ih =>
      unfold bitmap_alloc_word
      -- A word with a bit in it has a first one.
      by_cases hword : bitmap.map ix ≠ 0
      · rw [if_pos hword]
        cases hbit : bitmap_alloc_bit (bitmap.map ix) 32 0 with
        | none =>
            exfalso
            apply hword
            apply BitVec.eq_of_getLsbD_eq
            intro i hi
            rw [bitmap_alloc_bit_none (by omega) hbit i (by omega) (by omega)]
            simp
        | some offset =>
            obtain ⟨-, hlt, hset, hfirst⟩ := bitmap_alloc_bit_some (by omega) hbit
            have hdiv : (ix * 32 + offset) / 32 = ix := by omega
            have hmod : (ix * 32 + offset) % 32 = offset := by omega
            refine ⟨_, rfl, .some _ _ (by omega) ?_ ?_ rfl rfl ?_⟩
            · unfold Bitmap.isFree
              rw [hdiv, hmod]
              exact hset
            · intro i hi hi'
              have hi₁ : i / 32 = ix := by omega
              unfold Bitmap.isFree
              rw [hi₁]
              exact hfirst _ (by omega) (by omega)
            · have hupdate := Bitmap.isFree_update bitmap (ix * 32 + offset)
                (bitmap.map ix ^^^ bitMask offset) false
              rw [hdiv, hmod] at hupdate
              apply hupdate
              · rw [BitVec.getLsbD_xor, getLsbD_bitMask (by omega), hset]
                simp
              · intro i hi hne
                rw [BitVec.getLsbD_xor, getLsbD_bitMask hi]
                simp [hne]
      -- A word of zeros is passed over, with no free index in it.
      · rw [if_neg hword]
        rw [not_not] at hword
        have hzero : ∀ i, ix * 32 ≤ i → i < (ix + 1) * 32 → bitmap.isFree i = false := by
          intro i hi hi'
          have hi₁ : i / 32 = ix := by omega
          unfold Bitmap.isFree
          rw [hi₁, hword]
          simp
        obtain ⟨r, hr, hres⟩ := ih (ix + 1)
        refine ⟨r, hr, ?_⟩
        rw [show ix + 1 + n = ix + (n + 1) from by omega] at hres
        cases hres with
        | none hnone =>
            refine .none fun i hi hi' => ?_
            by_cases hlt : i < (ix + 1) * 32
            · exact hzero i hi hlt
            · exact hnone i (by omega) hi'
        | some index bitmap' hlt hfree hfirst hbits hwords hafter =>
            refine .some index bitmap' hlt hfree (fun i hi hi' => ?_) hbits hwords hafter
            by_cases hlt' : i < (ix + 1) * 32
            · exact hzero i hi hlt'
            · exact hfirst i (by omega) hi'

/-- `bitmap_alloc` takes the first free index. -/
theorem bitmap_alloc_eq (bitmap : Bitmap) :
    ∃ r, bitmap_alloc bitmap = .ok r ∧ AllocResult bitmap 0 (bitmap.nwords * 32) r := by
  obtain ⟨r, hr, hres⟩ := bitmap_alloc_word_eq bitmap bitmap.nwords 0
  rw [Nat.zero_mul, Nat.zero_add] at hres
  exact ⟨r, hr, hres⟩

end Ucore.Fs
