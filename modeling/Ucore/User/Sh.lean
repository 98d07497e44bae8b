import Ucore.Libs.String

/-!
# `Ucore.User.Sh`: the tokens of the shell

`gettoken` of `user/sh.c`, over the memory that the command line is in. It cuts the line in place.
`gettokens` calls it until it returns zero, as `runcmd` does.

The end of the file is what `gettoken` is to do: the tokens of a line. The characters are bytes.

`gettoken` has two static pointers, which are arguments here: the place to go on at, and the word of
the last call. A zero is written where a word ends, so the word can be read as a string later.

`Tokens line ts` says that `ts` are the tokens of the line: blanks stand between them, a symbol is
one character, and a word goes on to the next blank or symbol outside of quotes.
-/

set_option autoImplicit false

namespace Ucore.User

open Ucore.Lib Ucore.Libs

/-- `WHITESPACE`: the space, the tabulator, and the two ends of a line. -/
def WHITESPACE : List UInt8 := [32, 9, 13, 10]

/-- `SYMBOLS`: `<`, `|`, `>`, `&` and `;`. -/
def SYMBOLS : List UInt8 := [60, 124, 62, 38, 59]

/-- The quote. -/
def QUOTE : UInt8 := 34

/-- The first loop of `gettoken`: blanks become zero. -/
def skipBlanks : Nat → Bytes → Nat → Except Halt (Bytes × Nat)
  | 0, _, _ => .error .fuel
  | fuel + 1, mem, s =>
      if strchr WHITESPACE (mem s) = true then skipBlanks fuel (Function.update mem s 0) (s + 1)
      else .ok (mem, s)

/-- The second loop of `gettoken`: a word, in which quotes become spaces. -/
def wordLoop : Nat → Bytes → Nat → Bool → Except Halt (Bytes × Nat)
  | 0, _, _, _ => .error .fuel
  | fuel + 1, mem, s, flag =>
      if mem s ≠ 0 ∧ (flag = true ∨ strchr (WHITESPACE ++ SYMBOLS) (mem s) = false) then
        if mem s = QUOTE then wordLoop fuel (Function.update mem s 32) (s + 1) (!flag)
        else wordLoop fuel mem (s + 1) flag
      else .ok (mem, s)

/-- What `gettoken` returns and leaves behind: the token, the memory, `*p1`, which may be `NULL`,
and `*p2`. -/
structure TokenResult where
  token : UInt8
  mem : Bytes
  p1 : Option Nat
  p2 : Nat

/-- The token of a word is the letter `w`. -/
def WORD : UInt8 := 119

/-- `gettoken` -/
def gettoken (fuel : Nat) (mem : Bytes) (p1 : Option Nat) (p2 : Nat) : Except Halt TokenResult :=
  match p1 with
  | none => .ok ⟨0, mem, none, p2⟩
  | some s₀ => do
      let (mem, s) ← skipBlanks fuel mem s₀
      if mem s = 0 then return ⟨0, mem, some s₀, p2⟩
      else
        let next (mem : Bytes) (s : Nat) : Option Nat := if mem s ≠ 0 then some s else none
        if strchr SYMBOLS (mem s) = true then
          let mem' := Function.update mem s 0
          return ⟨mem s, mem', next mem' (s + 1), s⟩
        else
          let (mem', s') ← wordLoop fuel mem s false
          return ⟨WORD, mem', next mem' s', s⟩

/-- Call `gettoken` until it returns zero. -/
def gettokens : Nat → Bytes → Option Nat → Nat → Except Halt (List TokenResult)
  | 0, _, _, _ => .error .fuel
  | fuel + 1, mem, p1, p2 => do
      let r ← gettoken fuel mem p1 p2
      if r.token = 0 then return [r]
      else
        let rs ← gettokens fuel r.mem r.p1 r.p2
        return r :: rs

/-! ### The tokens of a line -/

/-- A token of a line. -/
inductive Token where
  | symbol (c : UInt8)
  | word (text : List UInt8)
  deriving DecidableEq, Repr

/-- What `gettoken` returns for the token. -/
def Token.code : Token → UInt8
  | symbol c => c
  | word _ => WORD

/-- A blank or a symbol. -/
def Special (c : UInt8) : Prop := c ∈ WHITESPACE ∨ c ∈ SYMBOLS

/-- The characters of a part of a word, from inside or outside quotes (`q`) on, and where they
lead to: outside quotes there is neither a blank nor a symbol. -/
inductive WordPart : Bool → List UInt8 → Bool → Prop
  | nil (q : Bool) : WordPart q [] q
  | quote {q q' : Bool} {cs : List UInt8} : WordPart (!q) cs q' → WordPart q (QUOTE :: cs) q'
  | char {q q' : Bool} {c : UInt8} {cs : List UInt8} : c ≠ QUOTE → q = true ∨ ¬ Special c →
      WordPart q cs q' → WordPart q (c :: cs) q'

/-- A word cannot go on: the line ends, or a blank or a symbol stands outside quotes. -/
def WordEnds (q : Bool) (rest : List UInt8) : Prop :=
  rest = [] ∨ q = false ∧ ∃ c cs, rest = c :: cs ∧ Special c

/-- The text of a word: each quote is a space. -/
def wordText (w : List UInt8) : List UInt8 := w.map fun c => if c = QUOTE then 32 else c

/-- The tokens of a line: blanks are skipped, a symbol is a token, and a word goes as far as it
can. -/
inductive Tokens : List UInt8 → List Token → Prop
  | done : Tokens [] []
  | blank {c : UInt8} {cs : List UInt8} {ts : List Token} : c ∈ WHITESPACE → Tokens cs ts →
      Tokens (c :: cs) ts
  | symbol {c : UInt8} {cs : List UInt8} {ts : List Token} : c ∈ SYMBOLS → Tokens cs ts →
      Tokens (c :: cs) (.symbol c :: ts)
  | word {line w rest : List UInt8} {q : Bool} {ts : List Token} : line = w ++ rest → w ≠ [] →
      WordPart false w q → WordEnds q rest → Tokens rest ts → Tokens line (.word (wordText w) :: ts)

end Ucore.User
