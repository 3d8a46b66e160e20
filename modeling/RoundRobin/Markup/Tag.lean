import RoundRobin.Markup.Name

/-! Start tags behind their names: attributes, and the end of the tag. Values are kept as they are
written. The input may end inside a start tag, behind its name or behind an attribute. -/

namespace RoundRobin.Markup

/-- An attribute as it is written, with its value between the quotation marks. -/
structure RawAttribute where
  name : Name
  value : List Char
deriving DecidableEq, Repr

/-- How a start tag ends. -/
inductive TagEnd where
  /-- The element is open behind the tag. -/
  | content
  /-- The tag is the whole element. -/
  | empty
  /-- The input ends inside the tag. -/
  | missing
deriving DecidableEq, Repr

/-- Takes an attribute: its name, an equals sign and its quoted value. -/
def RawAttribute.read? (cs : List Char) : Option (RawAttribute × List Char) := do
  let (name, cs) ← Name.read? cs
  let cs ← equals? cs
  let (value, cs) ← quoted? (· ≠ '<') cs
  if value.all isXmlChar then return (⟨name, value⟩, cs) else none

theorem length_of_readAttribute? {cs rest : List Char} {raw : RawAttribute}
    (h : RawAttribute.read? cs = some (raw, rest)) : rest.length < cs.length := by
  simp only [RawAttribute.read?, Option.bind_eq_bind, Option.bind_eq_some_iff] at h
  obtain ⟨⟨name, r1⟩, h1, r2, h2, ⟨value, r3⟩, h3, h4⟩ := h
  have l1 := length_of_read? h1
  have l2 : r2.length < r1.length := length_of_equals? h2
  have l3 := length_of_quoted? h3
  split at h4
  · simp only [pure, Option.some.injEq, Prod.mk.injEq] at h4
    obtain ⟨_, rfl⟩ := h4
    omega
  · simp at h4

/-- Takes the end of a start tag. -/
def tagEnd? : List Char → Option (TagEnd × List Char)
  | '/' :: '>' :: rest => some (.empty, rest)
  | '>' :: rest => some (.content, rest)
  | _ => none

/-- Takes the attributes of a start tag and the end of the tag. A space precedes each attribute. -/
def attributes? (cs : List Char) : Option (List RawAttribute × TagEnd × List Char) :=
  if cs = [] then some ([], .missing, [])
  else match tagEnd? (skipSpaces cs) with
    | some (ending, rest) => some ([], ending, rest)
    | none =>
      if !startsWithSpace cs then none
      else match _h : RawAttribute.read? (skipSpaces cs) with
        | some (raw, rest) => (attributes? rest).map fun (raws, ending) => (raw :: raws, ending)
        | none => none
termination_by cs.length
decreasing_by
  have h1 := length_of_readAttribute? _h
  have h2 := length_skipSpaces_le cs
  omega

theorem length_of_tagEnd? {cs rest : List Char} {ending : TagEnd}
    (h : tagEnd? cs = some (ending, rest)) : rest.length < cs.length := by
  unfold tagEnd? at h
  split at h
  · simp only [Option.some.injEq, Prod.mk.injEq] at h
    obtain ⟨_, rfl⟩ := h
    simp only [List.length_cons]
    omega
  · simp only [Option.some.injEq, Prod.mk.injEq] at h
    obtain ⟨_, rfl⟩ := h
    simp only [List.length_cons]
    omega
  · simp at h

theorem length_of_attributes? {cs rest : List Char} {raws : List RawAttribute} {ending : TagEnd}
    (h : attributes? cs = some (raws, ending, rest)) : rest.length ≤ cs.length := by
  induction hn : cs.length using Nat.strongRecOn generalizing cs raws with
  | ind n ih =>
    have hspaces := length_skipSpaces_le cs
    unfold attributes? at h
    split at h
    · simp_all
    · split at h
      · rename_i hend
        have := length_of_tagEnd? hend
        simp only [Option.some.injEq, Prod.mk.injEq] at h
        obtain ⟨_, _, rfl⟩ := h
        omega
      · split at h
        · simp at h
        · split at h
          · rename_i raw tail hread
            have hlt := length_of_readAttribute? hread
            obtain ⟨⟨raws', ending', rest'⟩, htail, heq⟩ := Option.map_eq_some_iff.mp h
            simp only [Prod.mk.injEq] at heq
            obtain ⟨_, rfl, rfl⟩ := heq
            have := ih tail.length (by omega) htail rfl
            omega
          · simp at h

end RoundRobin.Markup
