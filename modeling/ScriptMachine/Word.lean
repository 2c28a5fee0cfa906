/-!
# Words

Bounds of the numbers that fit into a machine word.
-/

namespace ScriptMachine.Word

/-- One more than the greatest unsigned word of 32 bits. -/
def limit32 : Nat := 0x100000000

/-- One more than the greatest signed word of 64 bits. -/
def limit63 : Nat := 0x8000000000000000

/-- One more than the greatest unsigned word of 64 bits. -/
def limit64 : Nat := 0x10000000000000000

/-- Whether an integer is a signed word of 64 bits. -/
def isSigned64 (n : Int) : Bool := -(limit63 : Int) ≤ n && n < limit63

/-- The signed word of 64 bits that an integer is, if it is one. -/
def signed64? (n : Int) : Option Int64 := if isSigned64 n then some (Int64.ofInt n) else none

end ScriptMachine.Word
