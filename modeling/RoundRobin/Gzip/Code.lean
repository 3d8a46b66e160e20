/-! Canonical prefix codes. A code gives each symbol a word of bits; the words of one length are
consecutive numbers in the order of the symbols, and shorter words come first. -/

namespace RoundRobin.Gzip

/-- A canonical code: how many words there are of each length from one, and the symbols in the order
of their words. -/
structure Code where
  counts : List Nat
  symbols : Array Nat

/-- Words have at most fifteen bits. -/
def maxLength : Nat := 15

namespace Code

/-- The code in which each symbol has a word of a given length, or none where that is zero. -/
def ofLengths (lengths : List Nat) : Code :=
  let wordLengths := (List.range maxLength).map (· + 1)
  { counts := wordLengths.map fun length => lengths.count length
    symbols := (wordLengths.flatMap fun wordLength =>
      (lengths.zipIdx.filter fun (length, _) => length = wordLength).map (·.2)).toArray }

/-- How many words of the greatest length the words of given lengths stand for. -/
def weight : List Nat → Nat
  | [] => 0
  | length :: lengths =>
    (if length = 0 then 0 else 1 <<< (maxLength - length)) + weight lengths

/-- The words of a code fill the space of all words. Two codes may leave room: the one without
symbols, and the one of a single symbol, whose word then has one bit. -/
def isAllowed (lengths : List Nat) : Bool :=
  let used := lengths.filter (· ≠ 0)
  weight lengths = 1 <<< maxLength || used = [] || used = [1]

def ofLengths? (lengths : List Nat) : Option Code :=
  if isAllowed lengths then some (ofLengths lengths) else none

/-- Takes a word, with `word` its bits so far, `first` the first word of the length that is next
and `passed` the number of shorter words. -/
def decodeFrom (symbols : Array Nat) :
    List Nat → (word first passed : Nat) → List Bool → Option (Nat × List Bool)
  | count :: counts, word, first, passed, bit :: bits =>
    let word := 2 * word + bit.toNat
    if first ≤ word ∧ word < first + count then
      symbols[passed + (word - first)]?.map fun symbol => (symbol, bits)
    else decodeFrom symbols counts word (2 * (first + count)) (passed + count) bits
  | _, _, _, _, _ => none

/-- Takes the word of a symbol. -/
def decode? (code : Code) (bits : List Bool) : Option (Nat × List Bool) :=
  decodeFrom code.symbols code.counts 0 0 0 bits

theorem length_of_decodeFrom {symbols : Array Nat} {counts : List Nat} {word first passed : Nat}
    {bits rest : List Bool} {symbol : Nat}
    (h : decodeFrom symbols counts word first passed bits = some (symbol, rest)) :
    rest.length < bits.length := by
  induction counts generalizing word first passed bits with
  | nil => simp [decodeFrom] at h
  | cons count counts ih =>
    cases bits with
    | nil => simp [decodeFrom] at h
    | cons bit bits =>
      simp only [decodeFrom] at h
      split at h
      · obtain ⟨s, _, heq⟩ := Option.map_eq_some_iff.mp h
        simp_all
      · have := ih h
        simp
        omega

/-- A word has at least one bit. -/
theorem length_of_decode? {code : Code} {bits rest : List Bool} {symbol : Nat}
    (h : code.decode? bits = some (symbol, rest)) : rest.length < bits.length :=
  length_of_decodeFrom h

end Code

end RoundRobin.Gzip
