import ClosureCode.Instruction

/-! The 64-bit FNV-1a fingerprint of a byte string. -/
namespace ClosureCode

def fingerprintBasis : UInt64 := 0xcbf29ce484222325

def fingerprintPrime : UInt64 := 0x100000001b3

def absorb (state : UInt64) (byte : UInt8) : UInt64 := (state ^^^ byte.toUInt64) * fingerprintPrime

def fingerprint (bytes : Bytes) : UInt64 := bytes.foldl absorb fingerprintBasis

def utf8 (s : String) : Bytes := s.toUTF8.toList

theorem fingerprintAppend (a b : Bytes) : fingerprint (a ++ b) = b.foldl absorb (fingerprint a) := by
  simp [fingerprint]

end ClosureCode
