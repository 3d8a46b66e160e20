import RoundRobin.Markup.Scan

/-! Remarks: comments and processing instructions. They may stand between other tokens and around
the root element, and their text is not kept. -/

namespace RoundRobin.Markup

/-- Takes a comment behind its opening mark. Two hyphens end it. -/
def comment? (cs : List Char) : Option (List Char) :=
  match cutAt? "-->".toList cs with
  | some (text, rest) =>
    if text.all isXmlChar && !occurs "--" text && text.getLast? ≠ some '-' then some rest else none
  | none => none

/-- Takes a processing instruction behind its opening mark: a target and, up to the closing mark,
any text. A target named as the XML declaration is and followed by a space is none. -/
def instruction? (cs : List Char) : Option (List Char) :=
  if (expect? "xml " cs).isSome then none
  else match skipName? cs with
    | some afterName =>
      match cutAt? "?>".toList (skipSpaces afterName) with
      | some (text, rest) => if text.all isXmlChar then some rest else none
      | none => none
    | none => none

/-- Takes a remark: a comment or a processing instruction. -/
def remark? (cs : List Char) : Option (List Char) :=
  match expect? "<!--" cs, expect? "<?" cs with
  | some rest, _ => comment? rest
  | none, some rest => instruction? rest
  | none, none => none

theorem length_of_comment? {cs rest : List Char} (h : comment? cs = some rest) :
    rest.length < cs.length := by
  unfold comment? at h
  split at h
  · rename_i hcut
    have := length_of_cutAt? hcut
    split at h <;> simp_all
    omega
  · simp at h

theorem length_of_instruction? {cs rest : List Char} (h : instruction? cs = some rest) :
    rest.length < cs.length := by
  unfold instruction? at h
  split at h
  · simp at h
  · split at h
    · rename_i afterName hname
      have h1 := length_of_skipName? hname
      have h2 := length_skipSpaces_le afterName
      split at h
      · rename_i hcut
        have := length_of_cutAt? hcut
        split at h <;> simp_all
        omega
      · simp at h
    · simp at h

theorem length_of_remark? {cs rest : List Char} (h : remark? cs = some rest) :
    rest.length < cs.length := by
  unfold remark? at h
  split at h
  · rename_i hopen
    have := length_of_expect? hopen
    have := length_of_comment? h
    omega
  · rename_i hopen
    have := length_of_expect? hopen
    have := length_of_instruction? h
    omega
  · simp at h

end RoundRobin.Markup
