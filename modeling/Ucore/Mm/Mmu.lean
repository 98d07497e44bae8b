import Mathlib

/-!
# `Ucore.Mm.Mmu`: addresses and page table entries

`kern/mm/mmu.h` and `kern/mm/memlayout.h`: the three nine-bit indices of a linear
address, the flag bits of a page table entry, and the bounds of user memory. A page
table entry is the number of the frame it names and its ten flag bits; `*ptep = 0` is
`Pte.zero`. Addresses are `uintptr_t`, written as `Nat`.
-/

set_option autoImplicit false

namespace Ucore.Mm

/-- `PGSIZE`, the bytes of a page. -/
def pgSize : Nat := 4096
/-- `PTSIZE`, what a last-level table maps. -/
def ptSize : Nat := pgSize * 512
/-- `PDSIZE`, what a middle-level table maps. -/
def pdSize : Nat := ptSize * 512

/-- `USERBASE`, where user memory begins. -/
def userBase : Nat := 0x00200000
/-- `USERTOP`, where it ends. -/
def userTop : Nat := 0x80000000

/-- `USER_ACCESS(start, end)`. -/
def userAccess (start stop : Nat) : Bool := userBase ≤ start && start < stop && stop ≤ userTop

/-- `ROUNDDOWN(a, n)`. -/
def roundDown (a n : Nat) : Nat := a - a % n
/-- `ROUNDUP(a, n)`, without a wrap. -/
def roundUpTo (a n : Nat) : Nat := roundDown (a + n - 1) n

/-- The number of a page frame, or the page it is the number of. -/
abbrev Frame := Nat

/-- The three indices of a linear address: `PDX1`, `PDX0` and `PTX`. -/
abbrev Vpn := Fin 512 × Fin 512 × Fin 512

/-- `PDX1(la)`. -/
def pdx1 (la : Nat) : Fin 512 := Fin.ofNat 512 (la / 2 ^ 30)
/-- `PDX0(la)`. -/
def pdx0 (la : Nat) : Fin 512 := Fin.ofNat 512 (la / 2 ^ 21)
/-- `PTX(la)`. -/
def ptx (la : Nat) : Fin 512 := Fin.ofNat 512 (la / 2 ^ 12)

/-- The three indices of an address. -/
def vpn (la : Nat) : Vpn := (pdx1 la, pdx0 la, ptx la)

/-- The page number of an address below `2 ^ 39`, from its indices. -/
theorem vpn_inj {a b : Nat} (ha : a < 2 ^ 39) (hb : b < 2 ^ 39) (h : vpn a = vpn b) :
    a / 2 ^ 12 = b / 2 ^ 12 := by
  have h1 := congrArg (fun v : Vpn => v.1.val) h
  have h2 := congrArg (fun v : Vpn => v.2.1.val) h
  have h3 := congrArg (fun v : Vpn => v.2.2.val) h
  simp only [vpn, pdx1, pdx0, ptx, Fin.ofNat] at h1 h2 h3
  omega

/-- All addresses of one page have the indices of its first address. -/
theorem vpn_roundDown (a : Nat) : vpn (roundDown a pgSize) = vpn a := by
  have h1 : roundDown a pgSize / 2 ^ 30 = a / 2 ^ 30 := by unfold roundDown pgSize; omega
  have h2 : roundDown a pgSize / 2 ^ 21 = a / 2 ^ 21 := by unfold roundDown pgSize; omega
  have h3 : roundDown a pgSize / 2 ^ 12 = a / 2 ^ 12 := by unfold roundDown pgSize; omega
  simp only [vpn, pdx1, pdx0, ptx, h1, h2, h3]

/-- The flag bits of a page table entry. -/
abbrev PteFlags := BitVec 10

/-- `PTE_V`, the entry is valid. -/
def pteV : PteFlags := 0x001
/-- `PTE_R`, the page may be read. -/
def pteR : PteFlags := 0x002
/-- `PTE_W`, the page may be written. -/
def pteW : PteFlags := 0x004
/-- `PTE_X`, the page may be executed. -/
def pteX : PteFlags := 0x008
/-- `PTE_U`, user code may use the page. -/
def pteU : PteFlags := 0x010
/-- `PTE_COW`, one of the two bits that the hardware leaves to software. -/
def pteCow : PteFlags := 0x100
/-- `PTE_USER`. It leaves out `PTE_COW`. -/
def pteUser : PteFlags := pteR ||| pteW ||| pteX ||| pteU ||| pteV

/-- `flags & bit`, as a test. -/
def PteFlags.has (flags bit : PteFlags) : Bool := flags &&& bit ≠ 0

/-- A page table entry: the frame and the flag bits. -/
structure Pte where
  ppn : Frame
  flags : PteFlags
  deriving DecidableEq, Repr

/-- `*ptep = 0`. -/
def Pte.zero : Pte := ⟨0, 0⟩

/-- `*ptep & PTE_V`. -/
def Pte.valid (e : Pte) : Bool := PteFlags.has e.flags pteV

/-- `pte_create(ppn, type)`. -/
def pteCreate (ppn : Frame) (type : PteFlags) : Pte := ⟨ppn, pteV ||| type⟩

/-- The frame a leaf entry maps, when it is valid. -/
def Pte.target (e : Pte) : Option Frame := if e.valid then some e.ppn else none

/-- The zero entry is not valid. -/
@[simp] theorem Pte.valid_zero : Pte.zero.valid = false := by decide

/-- The zero entry maps nothing. -/
@[simp] theorem Pte.target_zero : Pte.zero.target = none := by decide

/-- `pte_create` makes a valid entry. -/
@[simp] theorem valid_pteCreate (p : Frame) (perm : PteFlags) : (pteCreate p perm).valid = true := by
  show PteFlags.has (pteV ||| perm) pteV = true
  revert perm
  decide +kernel

/-- `pte_create` maps the page. -/
@[simp] theorem target_pteCreate (p : Frame) (perm : PteFlags) :
    (pteCreate p perm).target = some p := by
  rw [Pte.target, if_pos (valid_pteCreate p perm)]
  rfl

/-- An entry maps a page when it is valid and has its number. -/
theorem Pte.target_eq_some {e : Pte} {p : Frame} :
    e.target = some p ↔ e.valid = true ∧ e.ppn = p := by
  unfold Pte.target
  split <;> simp_all

end Ucore.Mm
