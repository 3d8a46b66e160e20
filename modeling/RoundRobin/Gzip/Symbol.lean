import RoundRobin.Gzip.Bits
import RoundRobin.Gzip.Code

/-! Symbols of compressed data: a byte, a copy of bytes that came before, or the end of a block. -/

namespace RoundRobin.Gzip

inductive Symbol where
  | byte (value : UInt8)
  | copy (distance length : Nat)
  | finish

/-- The shortest copy of each length symbol from 257 on, and its number of extra bits. -/
def lengthSymbols : Array (Nat × Nat) :=
  #[(3, 0), (4, 0), (5, 0), (6, 0), (7, 0), (8, 0), (9, 0), (10, 0), (11, 1), (13, 1), (15, 1),
    (17, 1), (19, 2), (23, 2), (27, 2), (31, 2), (35, 3), (43, 3), (51, 3), (59, 3), (67, 4),
    (83, 4), (99, 4), (115, 4), (131, 5), (163, 5), (195, 5), (227, 5), (258, 0)]

/-- The least distance of each distance symbol, and its number of extra bits. -/
def distanceSymbols : Array (Nat × Nat) :=
  #[(1, 0), (2, 0), (3, 0), (4, 0), (5, 1), (7, 1), (9, 2), (13, 2), (17, 3), (25, 3), (33, 4),
    (49, 4), (65, 5), (97, 5), (129, 6), (193, 6), (257, 7), (385, 7), (513, 8), (769, 8),
    (1025, 9), (1537, 9), (2049, 10), (3073, 10), (4097, 11), (6145, 11), (8193, 12), (12289, 12),
    (16385, 13), (24577, 13)]

/-- Takes the extra bits of a symbol and adds their number to what the symbol stands for. -/
def takeExtra? (table : Array (Nat × Nat)) (symbol : Nat) (bits : List Bool) :
    Option (Nat × List Bool) :=
  match table[symbol]? with
  | some (least, width) =>
    (takeNumber? width bits).map fun (extra, rest) => (least + extra, rest)
  | none => none

/-- Takes a length and a distance, the first with its symbol taken already. -/
def takeCopy? (distances : Code) (lengthSymbol : Nat) (bits : List Bool) :
    Option (Symbol × List Bool) := do
  let (length, bits) ← takeExtra? lengthSymbols lengthSymbol bits
  let (distanceSymbol, bits) ← distances.decode? bits
  let (distance, bits) ← takeExtra? distanceSymbols distanceSymbol bits
  return (.copy distance length, bits)

/-- Takes a symbol of a block with a code for bytes and lengths and a code for distances. -/
def takeSymbol? (literals distances : Code) (bits : List Bool) : Option (Symbol × List Bool) :=
  match literals.decode? bits with
  | none => none
  | some (value, rest) =>
    if value < 256 then some (.byte (UInt8.ofNat value), rest)
    else if value = 256 then some (.finish, rest)
    else takeCopy? distances (value - 257) rest

theorem length_of_takeExtra? {table : Array (Nat × Nat)} {symbol value : Nat}
    {bits rest : List Bool} (h : takeExtra? table symbol bits = some (value, rest)) :
    rest.length ≤ bits.length := by
  unfold takeExtra? at h
  split at h
  · obtain ⟨⟨extra, r⟩, hr, heq⟩ := Option.map_eq_some_iff.mp h
    have := length_of_takeNumber? hr
    simp_all
    omega
  · simp at h

theorem length_of_takeCopy? {distances : Code} {lengthSymbol : Nat} {symbol : Symbol}
    {bits rest : List Bool} (h : takeCopy? distances lengthSymbol bits = some (symbol, rest)) :
    rest.length ≤ bits.length := by
  unfold takeCopy? at h
  obtain ⟨⟨length, afterLength⟩, hlength, h⟩ := Option.bind_eq_some_iff.mp h
  obtain ⟨⟨value, afterValue⟩, hvalue, h⟩ := Option.bind_eq_some_iff.mp h
  obtain ⟨⟨distance, afterDistance⟩, hdistance, h⟩ := Option.bind_eq_some_iff.mp h
  have l1 := length_of_takeExtra? hlength
  have l2 := Code.length_of_decode? hvalue
  have l3 := length_of_takeExtra? hdistance
  simp only [pure, Option.some.injEq, Prod.mk.injEq] at h
  obtain ⟨_, rfl⟩ := h
  omega

/-- A symbol has at least one bit. -/
theorem length_of_takeSymbol? {literals distances : Code} {symbol : Symbol}
    {bits rest : List Bool} (h : takeSymbol? literals distances bits = some (symbol, rest)) :
    rest.length < bits.length := by
  unfold takeSymbol? at h
  split at h
  · simp at h
  · rename_i value tail hvalue
    have l1 := Code.length_of_decode? hvalue
    split at h
    · simp_all
    · split at h
      · simp_all
      · have l2 := length_of_takeCopy? h
        omega

/-- Takes symbols up to the end of a block. -/
def takeSymbols? (literals distances : Code) (bits : List Bool) :
    Option (List Symbol × List Bool) :=
  match _h : takeSymbol? literals distances bits with
  | none => none
  | some (.finish, rest) => some ([], rest)
  | some (symbol, rest) =>
    (takeSymbols? literals distances rest).map fun (symbols, rest) => (symbol :: symbols, rest)
termination_by bits.length
decreasing_by exact length_of_takeSymbol? _h

theorem length_of_takeSymbols? {literals distances : Code} {symbols : List Symbol}
    {bits rest : List Bool} (h : takeSymbols? literals distances bits = some (symbols, rest)) :
    rest.length < bits.length := by
  induction hn : bits.length using Nat.strongRecOn generalizing bits rest symbols with
  | ind n ih =>
    rw [takeSymbols?] at h
    split at h
    · simp at h
    · rename_i tail htail
      have := length_of_takeSymbol? htail
      simp_all
    · rename_i symbol tail _ htail
      have := length_of_takeSymbol? htail
      obtain ⟨⟨others, last⟩, hothers, heq⟩ := Option.map_eq_some_iff.mp h
      have := ih tail.length (by omega) hothers rfl
      simp_all
      omega

/-- The byte that was written `distance` bytes ago. Before the first byte there are zeros. -/
def byteAgo (distance : Nat) (output : Array UInt8) : UInt8 :=
  if distance ≤ output.size then output[output.size - distance]?.getD 0 else 0

/-- Repeats bytes that were written `distance` bytes ago. -/
def copyBack (distance length : Nat) (output : Array UInt8) : Array UInt8 :=
  (List.range length).foldl (fun output _ => output.push (byteAgo distance output)) output

/-- Writes what a symbol stands for. -/
def Symbol.write (output : Array UInt8) : Symbol → Array UInt8
  | .byte value => output.push value
  | .copy distance length => copyBack distance length output
  | .finish => output

end RoundRobin.Gzip
