/-! What can go wrong between instructions and bytes. `opcode` is always a printed name. -/
namespace ClosureCode

inductive CodeError where
  | undefinedOpcode (byte : UInt8)
  | operandCount (opcode : String) (expected got : Nat)
  | operandOverflow (opcode : String) (operand width : Nat)
  | unsupportedWidth (opcode : String) (width : Nat)
  | truncated (opcode : String) (needed available : Nat)
  deriving DecidableEq, Repr

def CodeError.message : CodeError → String
  | .undefinedOpcode byte => "opcode " ++ toString byte.toNat ++ " undefined"
  | .operandCount opcode expected got =>
      opcode ++ " expects " ++ toString expected ++ " operand(s), got " ++ toString got
  | .operandOverflow opcode operand width =>
      "operand " ++ toString operand ++ " of " ++ opcode ++ " does not fit in " ++
        toString width ++ " byte(s)"
  | .unsupportedWidth opcode width =>
      opcode ++ " declares an operand of unsupported width " ++ toString width
  | .truncated opcode needed available =>
      opcode ++ " needs " ++ toString needed ++ " operand byte(s), only " ++
        toString available ++ " available"

end ClosureCode
