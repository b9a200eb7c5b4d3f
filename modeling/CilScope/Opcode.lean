/-!
# The instruction set

The CIL opcodes that compiled snippets use, with the encodings of ECMA-335. One table lists for
every opcode its code, its mnemonic, the kind of its inline operand and its effect on control
flow; a two-byte opcode carries the lead byte `0xFE` in the high half of its code.
-/

namespace CilScope

/-- How an inline operand is stored. -/
inductive OperandKind
  | none
  /-- A signed byte. -/
  | shortInt
  /-- A signed 32-bit word. -/
  | int
  /-- A variable or argument index in one byte. -/
  | shortVar
  /-- A variable or argument index in two bytes. -/
  | var
  /-- A signed byte, counted from the next instruction. -/
  | shortBranch
  /-- A signed 32-bit word, counted from the next instruction. -/
  | branch
  /-- A metadata token in four bytes. -/
  | token
  deriving DecidableEq, Repr, Inhabited

/-- The number of bytes an inline operand takes. -/
def OperandKind.size : OperandKind → Nat
  | none => 0
  | shortInt | shortVar | shortBranch => 1
  | var => 2
  | int | branch | token => 4

/-- What control does after an instruction. -/
inductive FlowEffect
  | next
  | call
  | branch
  | condBranch
  /-- Control leaves the method or the handler. -/
  | return_
  | throw
  deriving DecidableEq, Repr, Inhabited

/-- The opcodes. -/
inductive Opcode
  | nop | ldarg0 | ldarg1 | ldarg2 | ldarg3 | ldloc0 | ldloc1 | ldloc2 | ldloc3 | stloc0
  | stloc1 | stloc2 | stloc3 | ldargS | stargS | ldlocS | stlocS | ldnull | ldcI4M1 | ldcI40
  | ldcI41 | ldcI42 | ldcI43 | ldcI44 | ldcI45 | ldcI46 | ldcI47 | ldcI48 | ldcI4S | ldcI4
  | dup | pop | call | ret | brS | brfalseS | brtrueS | beqS | bgeS | bgtS | bleS | bltS
  | bneUnS | br | brfalse | brtrue | beq | bge | bgt | ble | blt | bneUn | add | sub | mul
  | div | rem | and | or | xor | neg | not | convI4 | callvirt | ldstr | newobj | throw | ldfld
  | stfld | ldsfld | stsfld | box | ldlen | ldelemRef | endfinally | leave | leaveS | ceq | cgt
  | clt | ldarg | ldloc | stloc | rethrow
  deriving DecidableEq, Repr, Inhabited

namespace Opcode

/-- Every opcode, in the order of the table. -/
def all : List Opcode :=
  [.nop, .ldarg0, .ldarg1, .ldarg2, .ldarg3, .ldloc0, .ldloc1, .ldloc2, .ldloc3, .stloc0, .stloc1,
   .stloc2, .stloc3, .ldargS, .stargS, .ldlocS, .stlocS, .ldnull, .ldcI4M1, .ldcI40, .ldcI41,
   .ldcI42, .ldcI43, .ldcI44, .ldcI45, .ldcI46, .ldcI47, .ldcI48, .ldcI4S, .ldcI4, .dup, .pop,
   .call, .ret, .brS, .brfalseS, .brtrueS, .beqS, .bgeS, .bgtS, .bleS, .bltS, .bneUnS, .br,
   .brfalse, .brtrue, .beq, .bge, .bgt, .ble, .blt, .bneUn, .add, .sub, .mul, .div, .rem, .and,
   .or, .xor, .neg, .not, .convI4, .callvirt, .ldstr, .newobj, .throw, .ldfld, .stfld, .ldsfld,
   .stsfld, .box, .ldlen, .ldelemRef, .endfinally, .leave, .leaveS, .ceq, .cgt, .clt, .ldarg,
   .ldloc, .stloc, .rethrow]

/-- The encoded value; two-byte opcodes are `0xFExx`. -/
def code : Opcode → UInt16
  | nop => 0x00
  | ldarg0 => 0x02
  | ldarg1 => 0x03
  | ldarg2 => 0x04
  | ldarg3 => 0x05
  | ldloc0 => 0x06
  | ldloc1 => 0x07
  | ldloc2 => 0x08
  | ldloc3 => 0x09
  | stloc0 => 0x0A
  | stloc1 => 0x0B
  | stloc2 => 0x0C
  | stloc3 => 0x0D
  | ldargS => 0x0E
  | stargS => 0x10
  | ldlocS => 0x11
  | stlocS => 0x13
  | ldnull => 0x14
  | ldcI4M1 => 0x15
  | ldcI40 => 0x16
  | ldcI41 => 0x17
  | ldcI42 => 0x18
  | ldcI43 => 0x19
  | ldcI44 => 0x1A
  | ldcI45 => 0x1B
  | ldcI46 => 0x1C
  | ldcI47 => 0x1D
  | ldcI48 => 0x1E
  | ldcI4S => 0x1F
  | ldcI4 => 0x20
  | dup => 0x25
  | pop => 0x26
  | call => 0x28
  | ret => 0x2A
  | brS => 0x2B
  | brfalseS => 0x2C
  | brtrueS => 0x2D
  | beqS => 0x2E
  | bgeS => 0x2F
  | bgtS => 0x30
  | bleS => 0x31
  | bltS => 0x32
  | bneUnS => 0x33
  | br => 0x38
  | brfalse => 0x39
  | brtrue => 0x3A
  | beq => 0x3B
  | bge => 0x3C
  | bgt => 0x3D
  | ble => 0x3E
  | blt => 0x3F
  | bneUn => 0x40
  | add => 0x58
  | sub => 0x59
  | mul => 0x5A
  | div => 0x5B
  | rem => 0x5D
  | and => 0x5F
  | or => 0x60
  | xor => 0x61
  | neg => 0x65
  | not => 0x66
  | convI4 => 0x69
  | callvirt => 0x6F
  | ldstr => 0x72
  | newobj => 0x73
  | throw => 0x7A
  | ldfld => 0x7B
  | stfld => 0x7D
  | ldsfld => 0x7E
  | stsfld => 0x80
  | box => 0x8C
  | ldlen => 0x8E
  | ldelemRef => 0x9A
  | endfinally => 0xDC
  | leave => 0xDD
  | leaveS => 0xDE
  | ceq => 0xFE01
  | cgt => 0xFE02
  | clt => 0xFE04
  | ldarg => 0xFE09
  | ldloc => 0xFE0C
  | stloc => 0xFE0E
  | rethrow => 0xFE1A

/-- The assembler mnemonic. -/
def mnemonic : Opcode → String
  | nop => "nop"
  | ldarg0 => "ldarg.0"
  | ldarg1 => "ldarg.1"
  | ldarg2 => "ldarg.2"
  | ldarg3 => "ldarg.3"
  | ldloc0 => "ldloc.0"
  | ldloc1 => "ldloc.1"
  | ldloc2 => "ldloc.2"
  | ldloc3 => "ldloc.3"
  | stloc0 => "stloc.0"
  | stloc1 => "stloc.1"
  | stloc2 => "stloc.2"
  | stloc3 => "stloc.3"
  | ldargS => "ldarg.s"
  | stargS => "starg.s"
  | ldlocS => "ldloc.s"
  | stlocS => "stloc.s"
  | ldnull => "ldnull"
  | ldcI4M1 => "ldc.i4.m1"
  | ldcI40 => "ldc.i4.0"
  | ldcI41 => "ldc.i4.1"
  | ldcI42 => "ldc.i4.2"
  | ldcI43 => "ldc.i4.3"
  | ldcI44 => "ldc.i4.4"
  | ldcI45 => "ldc.i4.5"
  | ldcI46 => "ldc.i4.6"
  | ldcI47 => "ldc.i4.7"
  | ldcI48 => "ldc.i4.8"
  | ldcI4S => "ldc.i4.s"
  | ldcI4 => "ldc.i4"
  | dup => "dup"
  | pop => "pop"
  | call => "call"
  | ret => "ret"
  | brS => "br.s"
  | brfalseS => "brfalse.s"
  | brtrueS => "brtrue.s"
  | beqS => "beq.s"
  | bgeS => "bge.s"
  | bgtS => "bgt.s"
  | bleS => "ble.s"
  | bltS => "blt.s"
  | bneUnS => "bne.un.s"
  | br => "br"
  | brfalse => "brfalse"
  | brtrue => "brtrue"
  | beq => "beq"
  | bge => "bge"
  | bgt => "bgt"
  | ble => "ble"
  | blt => "blt"
  | bneUn => "bne.un"
  | add => "add"
  | sub => "sub"
  | mul => "mul"
  | div => "div"
  | rem => "rem"
  | and => "and"
  | or => "or"
  | xor => "xor"
  | neg => "neg"
  | not => "not"
  | convI4 => "conv.i4"
  | callvirt => "callvirt"
  | ldstr => "ldstr"
  | newobj => "newobj"
  | throw => "throw"
  | ldfld => "ldfld"
  | stfld => "stfld"
  | ldsfld => "ldsfld"
  | stsfld => "stsfld"
  | box => "box"
  | ldlen => "ldlen"
  | ldelemRef => "ldelem.ref"
  | endfinally => "endfinally"
  | leave => "leave"
  | leaveS => "leave.s"
  | ceq => "ceq"
  | cgt => "cgt"
  | clt => "clt"
  | ldarg => "ldarg"
  | ldloc => "ldloc"
  | stloc => "stloc"
  | rethrow => "rethrow"

/-- The kind of the inline operand. -/
def operandKind : Opcode → OperandKind
  | ldargS | stargS | ldlocS | stlocS => .shortVar
  | ldcI4S => .shortInt
  | ldcI4 => .int
  | call | callvirt | ldstr | newobj | ldfld | stfld | ldsfld | stsfld | box => .token
  | brS | brfalseS | brtrueS | beqS | bgeS | bgtS | bleS | bltS | bneUnS | leaveS => .shortBranch
  | br | brfalse | brtrue | beq | bge | bgt | ble | blt | bneUn | leave => .branch
  | ldarg | ldloc | stloc => .var
  | _ => .none

/-- The effect on control flow. -/
def flow : Opcode → FlowEffect
  | call | callvirt | newobj => .call
  | ret | endfinally => .return_
  | brS | br | leave | leaveS => .branch
  | brfalseS | brtrueS | beqS | bgeS | bgtS | bleS | bltS | bneUnS | brfalse | brtrue | beq
  | bge | bgt | ble | blt | bneUn => .condBranch
  | throw | rethrow => .throw
  | _ => .next

/-- The opcode with a given code. -/
def ofCode? (c : UInt16) : Option Opcode := all.find? (·.code == c)

/-- The opcode with a given mnemonic. -/
def ofMnemonic? (m : String) : Option Opcode := all.find? (·.mnemonic == m)

/-- The lead byte of two-byte opcodes. -/
def leadByte : UInt8 := 0xFE

/-- The opcode that is the single byte `b`. -/
def ofByte? (b : UInt8) : Option Opcode :=
  if b = leadByte then Option.none else ofCode? b.toUInt16

/-- The opcode that is the lead byte followed by `b`. -/
def ofSecondByte? (b : UInt8) : Option Opcode := ofCode? (0xFE00 + b.toUInt16)

/-- The number of bytes of the opcode itself. -/
def codeSize (op : Opcode) : Nat := if 0xFF < op.code then 2 else 1

/-- The number of bytes of an instruction with this opcode. -/
def size (op : Opcode) : Nat := op.codeSize + op.operandKind.size

/-- The bytes of the opcode itself. -/
def bytes (op : Opcode) : List UInt8 :=
  if 0xFF < op.code then [leadByte, op.code.toUInt8] else [op.code.toUInt8]

/-- Whether the operand is a jump target. -/
def isBranch (op : Opcode) : Bool :=
  op.operandKind = .branch || op.operandKind = .shortBranch

/-- Whether the opcode leaves a protected region. -/
def isLeave (op : Opcode) : Bool := op = .leave || op = .leaveS

/-- Whether control can go on to the instruction that follows. -/
def fallsThrough (op : Opcode) : Bool :=
  match op.flow with
  | .branch | .return_ | .throw => false
  | .next | .call | .condBranch => true

/-- The short form of a long branch. -/
def shortForm? : Opcode → Option Opcode
  | br => some brS
  | brfalse => some brfalseS
  | brtrue => some brtrueS
  | beq => some beqS
  | bge => some bgeS
  | bgt => some bgtS
  | ble => some bleS
  | blt => some bltS
  | bneUn => some bneUnS
  | leave => some leaveS
  | _ => Option.none

end Opcode

end CilScope
