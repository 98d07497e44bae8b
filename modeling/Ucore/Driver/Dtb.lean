import Ucore.Libs.String
import Ucore.Mm.Mmu

/-!
# `Ucore.Driver.Dtb`: the memory node of a device tree

`extract_memory_info` of lab 8 in `kern/driver/dtb.c`, over the memory that the blob is in. A number
of the blob is read in the byte order of the machine and turned around.

The second part is the format: the tokens of the structure block, and the tree that they spell.

The parser reads token by token and keeps a flag for the memory node. It takes the first property
`reg` of at least 16 bytes while the flag is set. `strcmp` and `strncmp` are those of
`Ucore.Libs.String`.

`Flattened mem dtb tree` says that the blob at `dtb` is the tree, as the format wants it, with any
number of `FDT_NOP` tokens in between. `MemoryReg` says which `reg` is that of the one memory node,
and `Misled` when another one comes first.
-/

set_option autoImplicit false

namespace Ucore.Driver

open Ucore.Lib Ucore.Libs Ucore.Mm

/-- The token in front of the name of a node. -/
def FDT_BEGIN_NODE : Nat := 1
/-- The token behind the children of a node. -/
def FDT_END_NODE : Nat := 2
/-- The token in front of a property. -/
def FDT_PROP : Nat := 3
/-- The token without a meaning. -/
def FDT_NOP : Nat := 4
/-- The token at the end of the structure block. -/
def FDT_END : Nat := 9

/-- The text `memory`. -/
def MEMORY : List UInt8 := [109, 101, 109, 111, 114, 121]

/-- The text `reg`. -/
def REG : List UInt8 := [114, 101, 103]

/-- `fdt32_to_cpu` -/
def fdt32ToCpu (x : Nat) : Nat :=
  ((x &&& 0xff) <<< 24) ||| (((x >>> 8) &&& 0xff) <<< 16) ||| (((x >>> 16) &&& 0xff) <<< 8) |||
    ((x >>> 24) &&& 0xff)

/-- `fdt64_to_cpu` -/
def fdt64ToCpu (x : Nat) : Nat :=
  (fdt32ToCpu (x &&& 0xffffffff) <<< 32) ||| fdt32ToCpu (x >>> 32)

/-- The loop of `extract_memory_info`, with `struct_ptr` and `in_memory_node`. A result is the base
and the size; `none` is the return value `-1`. -/
def extractLoop (mem : Bytes) (stringsBase : Nat) :
    Nat → Nat → Bool → Except Halt (Option (Nat × Nat))
  | 0, _, _ => .error .fuel
  | fuel + 1, structPtr, inMemoryNode =>
      let token := fdt32ToCpu (mem.load structPtr 4)
      let structPtr := structPtr + 4
      if token = FDT_BEGIN_NODE then do
        let nameLen ← strlen mem fuel structPtr
        let inMemoryNode := if strncmp mem structPtr MEMORY 6 = 0 then true else inMemoryNode
        extractLoop mem stringsBase fuel (roundDown (structPtr + nameLen + 4) 4) inMemoryNode
      else if token = FDT_END_NODE then extractLoop mem stringsBase fuel structPtr false
      else if token = FDT_PROP then
        let propLen := fdt32ToCpu (mem.load structPtr 4)
        let propNameoff := fdt32ToCpu (mem.load (structPtr + 4) 4)
        let propData := structPtr + 8
        if inMemoryNode = true ∧ strcmp mem (stringsBase + propNameoff) REG = 0 ∧ 16 ≤ propLen then
          .ok (some (fdt64ToCpu (mem.load propData 8), fdt64ToCpu (mem.load (propData + 8) 8)))
        else extractLoop mem stringsBase fuel (roundDown (propData + propLen + 3) 4) inMemoryNode
      else if token = FDT_NOP then extractLoop mem stringsBase fuel structPtr inMemoryNode
      else .ok none

/-- `extract_memory_info` of the blob at `dtb`. The header has the two offsets behind its first
eight bytes. -/
def extractMemoryInfo (mem : Bytes) (dtb fuel : Nat) : Except Halt (Option (Nat × Nat)) :=
  let structOffset := fdt32ToCpu (mem.load (dtb + 8) 4)
  let stringsOffset := fdt32ToCpu (mem.load (dtb + 12) 4)
  extractLoop mem (dtb + stringsOffset) fuel (dtb + structOffset) false

/-! ### The format -/

/-- A number with its highest byte first. -/
def ofBe (bs : List UInt8) : Nat := ofLe bs.reverse

/-- The big-endian word at `a`, as the format of the blob has it. -/
def be32 (mem : Bytes) (a : Nat) : Nat := ofBe (mem.slice a 4)

/-- A token of the structure block with what belongs to it. -/
inductive Tok where
  | beginNode (name : List UInt8)
  | endNode
  | prop (name data : List UInt8)
  | nop
  | fdtEnd
  deriving DecidableEq, Repr

/-- The token is at `a`, and the next one at `b`. Tokens begin at multiples of four. The name of a
property is in the strings block. -/
inductive TokAt (mem : Bytes) (strings : Nat) : Nat → Tok → Nat → Prop
  | beginNode {a : Nat} {name : List UInt8} : be32 mem a = FDT_BEGIN_NODE → CString mem (a + 4) name →
      TokAt mem strings a (.beginNode name) (roundUpTo (a + 4 + (name.length + 1)) 4)
  | endNode {a : Nat} : be32 mem a = FDT_END_NODE → TokAt mem strings a .endNode (a + 4)
  | prop {a : Nat} {name data : List UInt8} : be32 mem a = FDT_PROP →
      be32 mem (a + 4) = data.length → CString mem (strings + be32 mem (a + 8)) name →
      mem.slice (a + 12) data.length = data →
      TokAt mem strings a (.prop name data) (roundUpTo (a + 12 + data.length) 4)
  | nop {a : Nat} : be32 mem a = FDT_NOP → TokAt mem strings a .nop (a + 4)
  | fdtEnd {a : Nat} : be32 mem a = FDT_END → TokAt mem strings a .fdtEnd (a + 4)

/-- The tokens follow one another from `a` on. -/
inductive TokensAt (mem : Bytes) (strings : Nat) : Nat → List Tok → Prop
  | nil {a : Nat} : TokensAt mem strings a []
  | cons {a b : Nat} {tok : Tok} {toks : List Tok} : TokAt mem strings a tok b →
      TokensAt mem strings b toks → TokensAt mem strings a (tok :: toks)

/-- A row of nodes: the first one has a name, properties and children, and then comes the rest. -/
inductive Nodes where
  | nil
  | node (name : List UInt8) (props : List (List UInt8 × List UInt8)) (children rest : Nodes)

/-- The properties of a node come in front of its children. -/
def Nodes.tokens : Nodes → List Tok
  | nil => []
  | node name props children rest =>
      .beginNode name :: props.map (fun p => .prop p.1 p.2) ++ children.tokens ++
        .endNode :: rest.tokens

/-- The blob at `dtb` is the tree. There may be `FDT_NOP` between any two tokens. -/
structure Flattened (mem : Bytes) (dtb : Nat) (tree : Nodes) : Prop where
  magic : be32 mem dtb = 0xd00dfeed
  aligned : dtb % 8 = 0 ∧ be32 mem (dtb + 8) % 4 = 0
  root : ∃ props children, tree = .node [] props children .nil
  tokens : ∃ toks, TokensAt mem (dtb + be32 mem (dtb + 12)) (dtb + be32 mem (dtb + 8)) toks ∧
    toks.filter (· ≠ .nop) = tree.tokens ++ [.fdtEnd]

/-! ### The memory node -/

/-- `memory`, or `memory@` and a unit address. -/
def isMemory (name : List UInt8) : Bool := name = MEMORY || (MEMORY ++ [64]).isPrefixOf name

/-- The properties of the memory nodes. -/
def Nodes.memoryNodes : Nodes → List (List (List UInt8 × List UInt8))
  | nil => []
  | node name props children rest =>
      (if isMemory name then [props] else []) ++ children.memoryNodes ++ rest.memoryNodes

/-- The tree has one memory node, and `data` is its `reg`, which has at least one range of two
address cells and two size cells. -/
def MemoryReg (tree : Nodes) (data : List UInt8) : Prop :=
  ∃ props, tree.memoryNodes = [props] ∧ props.filter (fun p => p.1 = REG) = [(REG, data)] ∧
    16 ≤ data.length

/-- The base and the size of the first range. -/
def firstRange (data : List UInt8) : Nat × Nat := (ofBe (data.take 8), ofBe ((data.drop 8).take 8))

/-- A `reg` of at least one range, whether `in_memory_node` is set in its node, and whether the node
is a memory node. -/
structure Reg where
  marked : Bool
  own : Bool
  data : List UInt8

/-- The flag in a node: `flag` is what it was in front of the node. -/
def marks (flag : Bool) (name : List UInt8) : Bool := flag || MEMORY.isPrefixOf name

/-- The `reg` properties of a node with 16 bytes or more. -/
def longRegs (props : List (List UInt8 × List UInt8)) : List (List UInt8) :=
  (props.filter fun p => p.1 = REG ∧ 16 ≤ p.2.length).map (·.2)

/-- The `reg` properties in the order of the blob. The first child of a node begins with the flag of
the node, and its brothers begin without. -/
def Nodes.regs : Bool → Nodes → List Reg
  | _, nil => []
  | flag, node name props children rest =>
      (longRegs props).map (fun data => ⟨marks flag name, isMemory name, data⟩) ++
        children.regs (marks flag name) ++ rest.regs false

/-- In front of the `reg` of the memory node there is one in a node with the flag, and the first of
these has another range. -/
def Misled (tree : Nodes) (data : List UInt8) : Prop :=
  ∃ r, ((tree.regs false).takeWhile fun r => !r.own).find? (·.marked) = some r ∧
    r.data.take 16 ≠ data.take 16

end Ucore.Driver
