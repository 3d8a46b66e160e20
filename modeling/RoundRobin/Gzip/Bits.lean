/-! Bits of a byte sequence, the least significant bit of each byte first, and numbers taken from
them. -/

namespace RoundRobin.Gzip

def bitsOfByte (byte : UInt8) : List Bool := (List.range 8).map byte.toNat.testBit

def bitsOf (bytes : List UInt8) : List Bool := bytes.flatMap bitsOfByte

/-- The number whose bits these are, the least significant first. -/
def numberOf : List Bool → Nat
  | [] => 0
  | bit :: bits => bit.toNat + 2 * numberOf bits

/-- Takes a number of some bits. -/
def takeNumber? (width : Nat) (bits : List Bool) : Option (Nat × List Bool) :=
  let field := bits.take width
  if field.length = width then some (numberOf field, bits.drop width) else none

/-- The first bytes that some bits fill. -/
def bytesOf : Nat → List Bool → List UInt8
  | 0, _ => []
  | count + 1, bits => UInt8.ofNat (numberOf (bits.take 8)) :: bytesOf count (bits.drop 8)

theorem length_of_takeNumber? {width value : Nat} {bits rest : List Bool}
    (h : takeNumber? width bits = some (value, rest)) : rest.length + width = bits.length := by
  unfold takeNumber? at h
  simp only at h
  split at h
  · rename_i hlength
    simp only [Option.some.injEq, Prod.mk.injEq] at h
    obtain ⟨_, rfl⟩ := h
    rw [List.length_take] at hlength
    rw [List.length_drop]
    omega
  · simp at h

end RoundRobin.Gzip
