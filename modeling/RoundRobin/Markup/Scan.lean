import RoundRobin.Markup.Char

/-! Steps over the characters of a document. Each step takes a piece from the front and gives the
rest, which is shorter by what was taken; a step that finds something else gives nothing. -/

namespace RoundRobin.Markup

/-- A piece of a document: the document from the start of the piece on, and what stands behind
it. -/
structure Span where
  start : List Char
  behind : List Char
deriving DecidableEq, Repr, Inhabited

def Span.text (span : Span) : List Char :=
  span.start.take (span.start.length - span.behind.length)

/-- Steps over a mark. -/
def strip? : List Char → List Char → Option (List Char)
  | [], cs => some cs
  | m :: mark, c :: cs => if m = c then strip? mark cs else none
  | _ :: _, [] => none

/-- Steps over a fixed text. -/
def expect? (text : String) (cs : List Char) : Option (List Char) := strip? text.toList cs

/-- Splits behind the first occurrence of a mark; the mark itself is dropped. -/
def cutAt? (mark : List Char) : List Char → Option (List Char × List Char)
  | [] => none
  | c :: cs =>
    match strip? mark (c :: cs) with
    | some rest => some ([], rest)
    | none => (cutAt? mark cs).map fun (before, rest) => (c :: before, rest)

/-- Whether a mark occurs in a text. -/
def occurs (mark : String) (cs : List Char) : Bool := (cutAt? mark.toList cs).isSome

/-- Takes characters up to a quotation mark and steps over it. -/
def closeQuote? (quote : Char) (allowed : Char → Bool) (cs : List Char) :
    Option (List Char × List Char) :=
  let inside := fun c => c ≠ quote && allowed c
  match cs.dropWhile inside with
  | c :: rest => if c = quote then some (cs.takeWhile inside, rest) else none
  | [] => none

/-- Takes a text between quotation marks of either kind. -/
def quoted? (allowed : Char → Bool) : List Char → Option (List Char × List Char)
  | '"' :: cs => closeQuote? '"' allowed cs
  | '\'' :: cs => closeQuote? '\'' allowed cs
  | _ => none

/-- Steps over an equals sign with spaces around it. -/
def equals? (cs : List Char) : Option (List Char) := skipSpaces <$> expect? "=" (skipSpaces cs)

/-- Steps over a name without regard to its colons. -/
def skipName? : List Char → Option (List Char)
  | c :: cs =>
    if isNameStart c || c = ':' then some (cs.dropWhile fun c => isNamePart c || c = ':') else none
  | [] => none

/-- A mark is stepped over exactly where the text starts with it. -/
theorem strip?_eq_some_iff {mark cs rest : List Char} :
    strip? mark cs = some rest ↔ cs = mark ++ rest := by
  induction mark generalizing cs with
  | nil => simp [strip?]
  | cons m mark ih =>
    cases cs with
    | nil => simp [strip?]
    | cons c cs =>
      by_cases hc : m = c
      · simp [strip?, hc, ih]
      · simp [strip?, hc, Ne.symm hc]

theorem length_of_strip? {mark cs rest : List Char} (h : strip? mark cs = some rest) :
    rest.length + mark.length = cs.length := by
  rw [strip?_eq_some_iff.mp h, List.length_append, Nat.add_comm]

theorem length_of_expect? {text : String} {cs rest : List Char} (h : expect? text cs = some rest) :
    rest.length + text.toList.length = cs.length :=
  length_of_strip? h

theorem length_of_cutAt? {mark cs before rest : List Char}
    (h : cutAt? mark cs = some (before, rest)) :
    before.length + mark.length + rest.length = cs.length := by
  induction cs generalizing before with
  | nil => simp [cutAt?] at h
  | cons c cs ih =>
    unfold cutAt? at h
    split at h
    · rename_i hrest
      have := length_of_strip? hrest
      simp only [Option.some.injEq, Prod.mk.injEq] at h
      obtain ⟨rfl, rfl⟩ := h
      simp at this ⊢
      omega
    · obtain ⟨⟨a, b⟩, hcut, heq⟩ := Option.map_eq_some_iff.mp h
      simp only [Prod.mk.injEq] at heq
      obtain ⟨rfl, rfl⟩ := heq
      have := ih hcut
      simp
      omega

theorem length_of_closeQuote? {quote : Char} {allowed : Char → Bool} {cs value rest : List Char}
    (h : closeQuote? quote allowed cs = some (value, rest)) : rest.length < cs.length := by
  unfold closeQuote? at h
  simp only at h
  split at h
  · rename_i c tail hdrop
    split at h
    · have hle := length_dropWhile_le (fun c => c ≠ quote && allowed c) cs
      rw [hdrop, List.length_cons] at hle
      simp only [Option.some.injEq, Prod.mk.injEq] at h
      obtain ⟨_, rfl⟩ := h
      omega
    · simp at h
  · simp at h

theorem length_of_quoted? {allowed : Char → Bool} {cs value rest : List Char}
    (h : quoted? allowed cs = some (value, rest)) : rest.length < cs.length := by
  unfold quoted? at h
  split at h
  · have := length_of_closeQuote? h
    simp
    omega
  · have := length_of_closeQuote? h
    simp
    omega
  · simp at h

theorem length_of_equals? {cs rest : List Char} (h : equals? cs = some rest) :
    rest.length < cs.length := by
  obtain ⟨r, hr, rfl⟩ := Option.map_eq_some_iff.mp h
  have h1 := length_of_expect? hr
  have h2 := length_skipSpaces_le cs
  have h3 := length_skipSpaces_le r
  simp at h1
  omega

theorem length_of_skipName? {cs rest : List Char} (h : skipName? cs = some rest) :
    rest.length < cs.length := by
  unfold skipName? at h
  split at h
  · rename_i c cs
    split at h
    · have hle := length_dropWhile_le (fun c => isNamePart c || c = ':') cs
      simp only [Option.some.injEq] at h
      obtain rfl := h
      rw [List.length_cons]
      omega
    · simp at h
  · simp at h

end RoundRobin.Markup
