import RoundRobin.Gzip.Symbol

/-! Decompression of the DEFLATE format. Data is a sequence of blocks: stored bytes, or symbols of
two prefix codes that stand for bytes and for copies of what came before. -/

namespace RoundRobin.Gzip

/-- The order in which the lengths of the code for lengths are given. -/
def lengthOrder : List Nat := [16, 17, 18, 0, 8, 7, 9, 6, 10, 5, 11, 4, 12, 3, 13, 2, 14, 1, 15]

/-- Takes a stored block: from the next byte on, its size, the size with all bits turned, and its
bytes. -/
def takeStored? (output : Array UInt8) (bits : List Bool) : Option (Array UInt8 × List Bool) :=
  match takeNumber? 16 (bits.drop (bits.length % 8)) with
  | none => none
  | some (size, bits) =>
    match takeNumber? 16 bits with
    | none => none
    | some (turned, bits) =>
      if size + turned = 0xFFFF ∧ 8 * size ≤ bits.length then
        some (output ++ (bytesOf size bits).toArray, bits.drop (8 * size))
      else none

theorem length_of_takeStored? {output written : Array UInt8} {bits rest : List Bool}
    (h : takeStored? output bits = some (written, rest)) : rest.length ≤ bits.length := by
  unfold takeStored? at h
  split at h
  · simp at h
  · rename_i h1
    have l1 := length_of_takeNumber? h1
    split at h
    · simp at h
    · rename_i h2
      have l2 := length_of_takeNumber? h2
      split at h
      · simp only [Option.some.injEq, Prod.mk.injEq] at h
        obtain ⟨_, rfl⟩ := h
        simp at l1 ⊢
        omega
      · simp at h

/-- The lengths of the fixed code for bytes and copies. -/
def fixedLiteralLengths : List Nat :=
  List.replicate 144 8 ++ List.replicate 112 9 ++ List.replicate 24 7 ++ List.replicate 8 8

def fixedDistanceLengths : List Nat := List.replicate 32 5

/-- Puts the lengths that a symbol stands for before others, which are in reverse order. Three
symbols repeat a length: the one before, or zero. -/
def addLengths? (lengths : List Nat) (symbol : Nat) (bits : List Bool) :
    Option (List Nat × List Bool) :=
  let repeated := fun (length width least : Nat) =>
    (takeNumber? width bits).map fun (extra, rest) =>
      (List.replicate (least + 1 + extra) length ++ lengths, rest)
  if symbol < 16 then some (symbol :: lengths, bits)
  else if symbol = 16 then lengths.head?.bind fun length => repeated length 2 2
  else if symbol = 17 then repeated 0 3 2
  else repeated 0 7 10

theorem length_of_addLengths? {lengths added : List Nat} {symbol : Nat} {bits rest : List Bool}
    (h : addLengths? lengths symbol bits = some (added, rest)) :
    lengths.length < added.length ∧ rest.length ≤ bits.length := by
  have hrepeated : ∀ length width least : Nat,
      ((takeNumber? width bits).map fun (extra, rest) =>
        (List.replicate (least + 1 + extra) length ++ lengths, rest)) = some (added, rest) →
      lengths.length < added.length ∧ rest.length ≤ bits.length := by
    intro length width least hsome
    obtain ⟨⟨extra, r⟩, hr, heq⟩ := Option.map_eq_some_iff.mp hsome
    have := length_of_takeNumber? hr
    simp only [Prod.mk.injEq] at heq
    obtain ⟨rfl, rfl⟩ := heq
    simp
    omega
  unfold addLengths? at h
  simp only at h
  split at h
  · simp only [Option.some.injEq, Prod.mk.injEq] at h
    obtain ⟨rfl, rfl⟩ := h
    simp
  · split at h
    · obtain ⟨length, _, hsome⟩ := Option.bind_eq_some_iff.mp h
      exact hrepeated _ _ _ hsome
    · split at h
      · exact hrepeated _ _ _ h
      · exact hrepeated _ _ _ h

/-- Takes lengths until there are `total` of them. Those so far are in reverse order. -/
def takeLengths? (code : Code) (total : Nat) (lengths : List Nat) (bits : List Bool) :
    Option (List Nat × List Bool) :=
  if lengths.length < total then
    match code.decode? bits with
    | none => none
    | some (symbol, rest) =>
      match _h : addLengths? lengths symbol rest with
      | none => none
      | some (added, rest) => takeLengths? code total added rest
  else if lengths.length = total then some (lengths.reverse, bits)
  else none
termination_by total - lengths.length
decreasing_by
  have := (length_of_addLengths? _h).1
  omega

theorem length_of_takeLengths? {code : Code} {total : Nat} {lengths taken : List Nat}
    {bits rest : List Bool} (h : takeLengths? code total lengths bits = some (taken, rest)) :
    rest.length ≤ bits.length := by
  induction hn : total - lengths.length using Nat.strongRecOn generalizing bits lengths with
  | ind n ih =>
    rw [takeLengths?] at h
    split at h
    · split at h
      · simp at h
      · rename_i symbol afterSymbol hdecode
        have l1 := Code.length_of_decode? hdecode
        split at h
        · simp at h
        · rename_i added afterExtra hadded
          have l2 := length_of_addLengths? hadded
          have := ih _ (by omega) h rfl
          omega
    · split at h
      · simp only [Option.some.injEq, Prod.mk.injEq] at h
        obtain ⟨_, rfl⟩ := h
        omega
      · simp at h

/-- Takes the code for lengths, of which some lengths are given, with three bits each. -/
def takeLengthCode? (count : Nat) (bits : List Bool) : Option (Code × List Bool) :=
  if bits.length < 3 * count then none
  else
    let given := (List.range count).map fun i => numberOf ((bits.drop (3 * i)).take 3)
    let lengths := (List.range 19).map fun symbol => ((lengthOrder.zip given).lookup symbol).getD 0
    (Code.ofLengths? lengths).map fun code => (code, bits.drop (3 * count))

theorem length_of_takeLengthCode? {count : Nat} {code : Code} {bits rest : List Bool}
    (h : takeLengthCode? count bits = some (code, rest)) : rest.length ≤ bits.length := by
  unfold takeLengthCode? at h
  split at h
  · simp at h
  · obtain ⟨_, _, h⟩ := Option.map_eq_some_iff.mp h
    simp only [Prod.mk.injEq] at h
    obtain ⟨_, rfl⟩ := h
    simp

/-- Takes the two codes of a block that brings its own. Neither has more symbols than stand for
something. -/
def takeCodes? (bits : List Bool) : Option ((Code × Code) × List Bool) := do
  let (literalCount, bits) ← takeNumber? 5 bits
  let (distanceCount, bits) ← takeNumber? 5 bits
  guard (literalCount ≤ lengthSymbols.size ∧ distanceCount < distanceSymbols.size)
  let (lengthCount, bits) ← takeNumber? 4 bits
  let (lengthCode, bits) ← takeLengthCode? (lengthCount + 4) bits
  let (lengths, bits) ← takeLengths? lengthCode (literalCount + 257 + (distanceCount + 1)) [] bits
  let literals ← Code.ofLengths? (lengths.take (literalCount + 257))
  let distances ← Code.ofLengths? (lengths.drop (literalCount + 257))
  return ((literals, distances), bits)

theorem length_of_takeCodes? {codes : Code × Code} {bits rest : List Bool}
    (h : takeCodes? bits = some (codes, rest)) : rest.length ≤ bits.length := by
  unfold takeCodes? at h
  obtain ⟨_, h1, h⟩ := Option.bind_eq_some_iff.mp h
  obtain ⟨_, h2, h⟩ := Option.bind_eq_some_iff.mp h
  obtain ⟨_, _, h⟩ := Option.bind_eq_some_iff.mp h
  obtain ⟨_, h3, h⟩ := Option.bind_eq_some_iff.mp h
  obtain ⟨_, h4, h⟩ := Option.bind_eq_some_iff.mp h
  obtain ⟨_, h5, h⟩ := Option.bind_eq_some_iff.mp h
  obtain ⟨_, _, h⟩ := Option.bind_eq_some_iff.mp h
  obtain ⟨_, _, h⟩ := Option.bind_eq_some_iff.mp h
  simp only [pure, Option.some.injEq, Prod.mk.injEq] at h
  obtain ⟨_, rfl⟩ := h
  have l1 := length_of_takeNumber? h1
  have l2 := length_of_takeNumber? h2
  have l3 := length_of_takeNumber? h3
  have l4 := length_of_takeLengthCode? h4
  have l5 := length_of_takeLengths? h5
  omega

/-- Takes symbols and writes what they stand for. -/
def takeWritten? (literals distances : Code) (output : Array UInt8) (bits : List Bool) :
    Option (Array UInt8 × List Bool) :=
  (takeSymbols? literals distances bits).map fun (symbols, rest) =>
    (symbols.foldl Symbol.write output, rest)

theorem length_of_takeWritten? {literals distances : Code} {output written : Array UInt8}
    {bits rest : List Bool}
    (h : takeWritten? literals distances output bits = some (written, rest)) :
    rest.length < bits.length := by
  obtain ⟨_, h1, h⟩ := Option.map_eq_some_iff.mp h
  simp only [Prod.mk.injEq] at h
  obtain ⟨_, rfl⟩ := h
  exact length_of_takeSymbols? h1

/-- Takes the contents of a block of a type. -/
def takeContents? (type : Nat) (output : Array UInt8) (bits : List Bool) :
    Option (Array UInt8 × List Bool) :=
  match type with
  | 0 => takeStored? output bits
  | 1 =>
    takeWritten? (.ofLengths fixedLiteralLengths) (.ofLengths fixedDistanceLengths) output bits
  | 2 =>
    match takeCodes? bits with
    | none => none
    | some ((literals, distances), bits) => takeWritten? literals distances output bits
  | _ => none

theorem length_of_takeContents? {type : Nat} {output written : Array UInt8}
    {bits rest : List Bool} (h : takeContents? type output bits = some (written, rest)) :
    rest.length ≤ bits.length := by
  unfold takeContents? at h
  split at h
  · exact length_of_takeStored? h
  · exact Nat.le_of_lt (length_of_takeWritten? h)
  · split at h
    · simp at h
    · rename_i hcodes
      have := length_of_takeCodes? hcodes
      have := length_of_takeWritten? h
      omega
  · simp at h

/-- Takes a block; says whether it is the last one. -/
def takeBlock? (output : Array UInt8) (bits : List Bool) :
    Option ((Bool × Array UInt8) × List Bool) := do
  let (last, bits) ← takeNumber? 1 bits
  let (type, bits) ← takeNumber? 2 bits
  let (output, bits) ← takeContents? type output bits
  return ((last = 1, output), bits)

/-- A block has at least its type and whether it is the last one. -/
theorem length_of_takeBlock? {output : Array UInt8} {block : Bool × Array UInt8}
    {bits rest : List Bool} (h : takeBlock? output bits = some (block, rest)) :
    rest.length < bits.length := by
  unfold takeBlock? at h
  obtain ⟨_, h1, h⟩ := Option.bind_eq_some_iff.mp h
  obtain ⟨_, h2, h⟩ := Option.bind_eq_some_iff.mp h
  obtain ⟨_, h3, h⟩ := Option.bind_eq_some_iff.mp h
  simp only [pure, Option.some.injEq, Prod.mk.injEq] at h
  obtain ⟨_, rfl⟩ := h
  have l1 := length_of_takeNumber? h1
  have l2 := length_of_takeNumber? h2
  have l3 := length_of_takeContents? h3
  omega

/-- Takes blocks up to the last one. -/
def inflateFrom? (output : Array UInt8) (bits : List Bool) : Option (Array UInt8 × List Bool) :=
  match _h : takeBlock? output bits with
  | none => none
  | some ((true, output), rest) => some (output, rest)
  | some ((false, output), rest) => inflateFrom? output rest
termination_by bits.length
decreasing_by exact length_of_takeBlock? _h

/-- Decompresses data; gives what it holds and the bits behind it. -/
def inflate? (bits : List Bool) : Option (Array UInt8 × List Bool) := inflateFrom? #[] bits

end RoundRobin.Gzip
