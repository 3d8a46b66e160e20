import RoundRobin.Gzip.Inflate

/-! Members of gzip files: a header, compressed data, and the checksum and size of the data. Of a
file, the first member counts. -/

namespace RoundRobin.Gzip

/-- One step of the cyclic redundancy check with the polynomial of the format. -/
def checkBit (state : UInt32) : UInt32 :=
  if state &&& 1 = 1 then (state >>> 1) ^^^ 0xEDB88320 else state >>> 1

def checkByte (state : UInt32) (byte : UInt8) : UInt32 :=
  (List.range 8).foldl (fun state _ => checkBit state) (state ^^^ byte.toUInt32)

/-- The checksum of some bytes. -/
def checksum (bytes : List UInt8) : UInt32 := bytes.foldl checkByte 0xFFFFFFFF ^^^ 0xFFFFFFFF

/-- The number of some bytes, the least significant first. -/
def littleEndian : List UInt8 → Nat
  | [] => 0
  | byte :: bytes => byte.toNat + 256 * littleEndian bytes

/-- A field of the header has at most this many bytes. -/
def maxField : Nat := 65535

/-- Steps over a text that a zero ends. -/
def skipText? (bytes : List UInt8) : Option (List UInt8) :=
  let text := bytes.takeWhile (· ≠ 0)
  if text.length ≤ maxField then
    match bytes.dropWhile (· ≠ 0) with
    | _ :: rest => some rest
    | [] => none
  else none

/-- Steps over a field that gives its size. -/
def skipSized? : List UInt8 → Option (List UInt8)
  | low :: high :: bytes =>
    let size := littleEndian [low, high]
    if size ≤ bytes.length then some (bytes.drop size) else none
  | _ => none

/-- Steps over a checksum of the header, which is the lower half of that of its bytes. -/
def skipHeaderCheck? (whole bytes : List UInt8) : Option (List UInt8) :=
  match bytes with
  | low :: high :: rest =>
    let header := whole.take (whole.length - bytes.length)
    if littleEndian [low, high] = (checksum header).toNat % 65536 then some rest else none
  | _ => none

/-- Applies a step where a bit of the flags asks for it. -/
def whenFlag (flags : UInt8) (bit : Nat) (step : List UInt8 → Option (List UInt8))
    (bytes : List UInt8) : Option (List UInt8) :=
  if flags.toNat.testBit bit then step bytes else some bytes

/-- Steps over the header of a member. -/
def skipHeader? (whole : List UInt8) : Option (List UInt8) :=
  match whole with
  | 0x1F :: 0x8B :: 8 :: flags :: _ :: _ :: _ :: _ :: _ :: _ :: bytes =>
    if flags.toNat < 32 then do
      let bytes ← whenFlag flags 2 skipSized? bytes
      let bytes ← whenFlag flags 3 skipText? bytes
      let bytes ← whenFlag flags 4 skipText? bytes
      whenFlag flags 1 (skipHeaderCheck? whole) bytes
    else none
  | _ => none

/-- The data of the first member of a file, if it is whole and its checksum and size are right. -/
def unpack? (file : List UInt8) : Option (List UInt8) := do
  let (output, rest) ← inflate? (bitsOf (← skipHeader? file))
  let trailer := rest.drop (rest.length % 8)
  let data := output.toList
  let (check, trailer) ← takeNumber? 32 trailer
  let (size, _) ← takeNumber? 32 trailer
  if check = (checksum data).toNat ∧ size = data.length % (1 <<< 32) then return data else none

end RoundRobin.Gzip
