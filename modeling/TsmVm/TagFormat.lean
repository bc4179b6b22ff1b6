import TsmVm.Base

/-!
# The A1/A0 format

What the comments of the source say a message looks like: an element `A0` is a
length, a sequence number and data, where the length counts the sequence number
and the data; a message `A1` is a length and the elements behind each other. A
length below 255 is one byte, a larger one is `FF` and two bytes.
-/

namespace TsmVm

/-- The length field. -/
def tagLen (k : ℕ) : List UInt8 :=
  if k < 255 then [UInt8.ofNat k] else [0xFF, UInt8.ofNat (k / 256), UInt8.ofNat (k % 256)]

/-- A short length is one byte. -/
theorem tagLen_short {k : ℕ} (h : k < 255) : tagLen k = [UInt8.ofNat k] := if_pos h

/-- A long length is three bytes. -/
theorem tagLen_long {k : ℕ} (h : 255 ≤ k) :
    tagLen k = [0xFF, UInt8.ofNat (k / 256), UInt8.ofNat (k % 256)] := if_neg (by omega)

/-- A fragment: its sequence number and its data. -/
structure Fragment where
  /-- The sequence number. -/
  seq : UInt8
  /-- The data. -/
  bytes : List UInt8
  deriving DecidableEq, Repr

/-- `A0`, the length, the sequence number and the data. -/
def Fragment.element (f : Fragment) : List UInt8 :=
  0xA0 :: (tagLen (1 + f.bytes.length) ++ f.seq :: f.bytes)

/-- The elements behind each other. -/
def tagBody (fs : List Fragment) : List UInt8 := fs.flatMap Fragment.element

@[simp] theorem tagBody_nil : tagBody [] = [] := rfl

@[simp] theorem tagBody_cons (f : Fragment) (fs : List Fragment) :
    tagBody (f :: fs) = f.element ++ tagBody fs := rfl

/-- `A1`, the length and the body. -/
def tagMessage (fs : List Fragment) : List UInt8 :=
  0xA1 :: (tagLen (tagBody fs).length ++ tagBody fs)

/-- The fragments numbered from `seq` on. -/
def numbered : ℕ → List (List UInt8) → List Fragment
  | _, [] => []
  | seq, a :: apdus => ⟨UInt8.ofNat seq, a⟩ :: numbered (seq + 1) apdus

end TsmVm
