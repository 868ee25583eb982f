/-!
# Opcodes of the Turtle16

* `Opcode` — the operations that a line of assembly may name;
* `mnemonic` / `ofMnemonic?` — their spelling, and the reading of a spelling;
* `isConditionalBranch`, `isTerminator` — what an operation does to the flow of control;
* `writesFirst`, `readsAll` — the roles of its operands.

`ofMnemonic?_mnemonic` says that every opcode is read back from its spelling, hence no two
opcodes are spelled alike.
-/

namespace TurtleAlloc

/-- An operation of the Turtle16 assembler, pseudo-operations included. -/
inductive Opcode where
  | nop | hlt
  | load | store | li | liu | lui
  | cmp | add | sub | and | or | xor | not
  | cmpi | addi | subi | andi | ori | xori
  | adc | sbc
  | jmp | jr | jalr
  | beq | bne | blt | bgt | bltu | bgtu
  | la | call | callptr | enter | leave | ret | breakpoint
  deriving DecidableEq, Repr

namespace Opcode

/-- Every opcode once. -/
def all : List Opcode :=
  [nop, hlt, load, store, li, liu, lui, cmp, add, sub, and, or, xor, not, cmpi, addi, subi, andi,
    ori, xori, adc, sbc, jmp, jr, jalr, beq, bne, blt, bgt, bltu, bgtu, la, call, callptr, enter,
    leave, ret, breakpoint]

/-- The spelling of an opcode in a listing. -/
def mnemonic : Opcode → String
  | nop => "NOP"
  | hlt => "HLT"
  | load => "LOAD"
  | store => "STORE"
  | li => "LI"
  | liu => "LIU"
  | lui => "LUI"
  | cmp => "CMP"
  | add => "ADD"
  | sub => "SUB"
  | and => "AND"
  | or => "OR"
  | xor => "XOR"
  | not => "NOT"
  | cmpi => "CMPI"
  | addi => "ADDI"
  | subi => "SUBI"
  | andi => "ANDI"
  | ori => "ORI"
  | xori => "XORI"
  | adc => "ADC"
  | sbc => "SBC"
  | jmp => "JMP"
  | jr => "JR"
  | jalr => "JALR"
  | beq => "BEQ"
  | bne => "BNE"
  | blt => "BLT"
  | bgt => "BGT"
  | bltu => "BLTU"
  | bgtu => "BGTU"
  | la => "LA"
  | call => "CALL"
  | callptr => "CALLPTR"
  | enter => "ENTER"
  | leave => "LEAVE"
  | ret => "RET"
  | breakpoint => "BREAK"

/-- The opcode with the given spelling; case matters. -/
def ofMnemonic? (text : String) : Option Opcode :=
  all.find? fun opcode => opcode.mnemonic == text

/-- Branches that may or may not be taken. -/
def isConditionalBranch : Opcode → Bool
  | beq | bne | blt | bgt | bltu | bgtu => true
  | _ => false

/-- Operations after which control need not go on to the next line: a basic block ends here. -/
def isTerminator : Opcode → Bool
  | jmp | jr | jalr | call | callptr | ret | hlt => true
  | opcode => opcode.isConditionalBranch

/-- Operations that write their first operand and read the others. -/
def writesFirst : Opcode → Bool
  | load | li | liu | lui | add | sub | and | or | xor | not | addi | subi | andi | ori | xori
  | adc | sbc | jalr | la => true
  | _ => false

/-- Operations that read all their operands and write none. -/
def readsAll : Opcode → Bool
  | cmp | cmpi | store | jr | callptr => true
  | _ => false

theorem ofMnemonic?_mnemonic (opcode : Opcode) : ofMnemonic? opcode.mnemonic = some opcode := by
  cases opcode <;> decide

/-- No operation has both roles. -/
theorem readsAll_eq_false_of_writesFirst {opcode : Opcode} (h : opcode.writesFirst = true) :
    opcode.readsAll = false := by
  revert h
  cases opcode <;> decide

end Opcode

end TurtleAlloc
