import TsmVm.BufferPanics

/-!
# How the commands that wait for a MAC come to be built

A bytecode that caches commands comes to its flag where every operand and variable it
needs is there, the name of the agent can be copied, and no command has data to copy: the
length of the data, or the address that is kept of them, is zero in its low byte. The data
of an INSTALL command are put together in a buffer on the stack, which they must not leave.
-/

namespace TsmVm

/-- The name of the agent is there, and can be copied. -/
def NamesAgent (agent : Res (Option FmBytes)) : Prop := ∃ a, agent = .ok (some a) ∧ a.Copyable

/-- There is a first byte. -/
def HasFirstByte (p : Res (Option FmBytes)) : Prop := ∃ d, p = .ok (some d) ∧ d.buf ≠ []

/-- Of data with this length and address nothing is copied. -/
def NothingCopied (leng : ℤ) (addr : ℕ) : Prop := u8 leng = 0 ∨ u8 addr = 0

/-- The data of a command can be looked up, and are not copied. -/
def DataPass (data : Res (Option FmBytes)) : Prop :=
  ∃ found, data = .ok found ∧ ∀ d ∈ found, NothingCopied d.leng d.addr

section Make

variable {cla ins p1 p2 : UInt8} {u : Unspec} {k : ℕ} {agent : Option FmBytes} {skb : Skb}

end Make

/-! ## INSTALL commands -/

section Install

variable {u : Unspec} {pos n : ℕ} {buf buf' : List UInt8}

end Install

/-! ## What is looked up -/

section Lookups

variable {e : Stop} {found : Option FmBytes}

@[simp] theorem not_namesAgent_error : ¬ NamesAgent (.error e) := by simp [NamesAgent]

@[simp] theorem not_hasFirstByte_error : ¬ HasFirstByte (.error e) := by simp [HasFirstByte]

@[simp] theorem not_dataPass_error : ¬ DataPass (.error e) := by simp [DataPass]

end Lookups

/-! ## The bytecodes -/

section Calls

variable {u : Unspec} {ccb : Ccb} {arg : FmBytesArray} {agent : Option FmBytes}

end Calls

end TsmVm
