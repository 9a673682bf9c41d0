/-!
# Integer registers

The 32 integer registers of RV32, by number and by their names in the standard calling convention.
-/

namespace ReplayVM

/-- The number of an integer register. -/
abbrev Reg := Fin 32

namespace Reg

/-- The register whose number has the given five low bits. -/
def ofNat (n : Nat) : Reg := Fin.ofNat 32 n

/-- The register that always reads zero. -/
def zero : Reg := 0

/-- The stack pointer. -/
def sp : Reg := 2

/-- The first argument and result of a system call. -/
def a0 : Reg := 10

/-- The second argument and result of a system call. -/
def a1 : Reg := 11

/-- The number of a system call. -/
def a7 : Reg := 17

/-- The names in the calling convention, by number. -/
def names : List String :=
  ["zero", "ra", "sp", "gp", "tp", "t0", "t1", "t2", "s0", "s1", "a0", "a1", "a2", "a3", "a4",
   "a5", "a6", "a7", "s2", "s3", "s4", "s5", "s6", "s7", "s8", "s9", "s10", "s11", "t3", "t4",
   "t5", "t6"]

/-- The name of the register with a number, `?` past the last register. -/
def nameAt (n : Nat) : String := names.getD n "?"

/-- The name of a register. -/
def name (r : Reg) : String := nameAt r.val

end Reg

end ReplayVM
