import RoundRobin.Markup.Remark
import RoundRobin.Markup.Tag

/-! The tokens from the root's start tag to its end: start tags, end tags, text runs, CDATA sections
and remarks. Each token takes at least one character. -/

namespace RoundRobin.Markup

inductive Token where
  | start (name : Name) (attributes : List RawAttribute) (ending : TagEnd)
  | stop (name : Name)
  | text (raw : List Char)
  | cdata (content : List Char)
  /-- A comment or a processing instruction. -/
  | remark
deriving DecidableEq, Repr

/-- Takes a CDATA section behind its opening mark. -/
def cdata? (cs : List Char) : Option (Token × List Char) :=
  match cutAt? "]]>".toList cs with
  | some (content, rest) => if content.all isXmlChar then some (.cdata content, rest) else none
  | none => none

/-- Takes an end tag behind its opening mark. -/
def endTag? (cs : List Char) : Option (Token × List Char) :=
  match Name.read? cs with
  | some (name, afterName) =>
    (expect? ">" (skipSpaces afterName)).map fun rest => (.stop name, rest)
  | none => none

/-- Takes a start tag behind its opening mark. -/
def startTag? (cs : List Char) : Option (Token × List Char) :=
  match Name.read? cs with
  | some (name, afterName) =>
    (attributes? afterName).map fun (raws, ending, rest) => (.start name raws ending, rest)
  | none => none

/-- Takes a text run: all characters up to the next mark. The end of a CDATA section is no text. -/
def textRun? (cs : List Char) : Option (Token × List Char) :=
  let raw := cs.takeWhile (· ≠ '<')
  if raw.all isXmlChar && !occurs "]]>" raw then some (.text raw, cs.dropWhile (· ≠ '<')) else none

/-- Takes the next token. -/
def Token.next? (cs : List Char) : Option (Token × List Char) :=
  match cs with
  | '<' :: '!' :: rest =>
    match expect? "[CDATA[" rest with
    | some rest => cdata? rest
    | none => (remark? cs).map fun rest => (.remark, rest)
  | '<' :: '?' :: _ => (remark? cs).map fun rest => (.remark, rest)
  | '<' :: '/' :: rest => endTag? rest
  | '<' :: rest => startTag? rest
  | _ => textRun? cs

theorem length_of_cdata? {cs rest : List Char} {token : Token}
    (h : cdata? cs = some (token, rest)) : rest.length < cs.length := by
  unfold cdata? at h
  split at h
  · rename_i hcut
    have := length_of_cutAt? hcut
    split at h <;> simp_all
    omega
  · simp at h

theorem length_of_endTag? {cs rest : List Char} {token : Token}
    (h : endTag? cs = some (token, rest)) : rest.length < cs.length := by
  unfold endTag? at h
  split at h
  · rename_i name afterName hname
    obtain ⟨tail, htail, heq⟩ := Option.map_eq_some_iff.mp h
    have h1 := length_of_read? hname
    have h2 := length_of_expect? htail
    have h3 := length_skipSpaces_le afterName
    simp_all
    omega
  · simp at h

theorem length_of_startTag? {cs rest : List Char} {token : Token}
    (h : startTag? cs = some (token, rest)) : rest.length < cs.length := by
  unfold startTag? at h
  split at h
  · rename_i name afterName hname
    obtain ⟨⟨raws, ending, tail⟩, htail, heq⟩ := Option.map_eq_some_iff.mp h
    have h1 := length_of_read? hname
    have h2 := length_of_attributes? htail
    simp_all
    omega
  · simp at h

theorem length_of_textRun? {c : Char} {cs rest : List Char} {token : Token} (hc : c ≠ '<')
    (h : textRun? (c :: cs) = some (token, rest)) : rest.length < (c :: cs).length := by
  unfold textRun? at h
  simp only at h
  split at h
  · simp only [Option.some.injEq, Prod.mk.injEq] at h
    obtain ⟨_, rfl⟩ := h
    have hle := length_dropWhile_le (· ≠ '<') cs
    rw [List.dropWhile_cons_of_pos (by simpa using hc), List.length_cons]
    omega
  · simp at h

/-- Every token takes at least one character. -/
theorem Token.length_of_next? {c : Char} {cs rest : List Char} {token : Token}
    (h : Token.next? (c :: cs) = some (token, rest)) : rest.length < (c :: cs).length := by
  unfold Token.next? at h
  split at h
  · rename_i tail heq
    split at h
    · rename_i inner hopen
      have h1 := length_of_expect? hopen
      have h2 := length_of_cdata? h
      simp_all
      omega
    · obtain ⟨r, hr, heq'⟩ := Option.map_eq_some_iff.mp h
      have := length_of_remark? hr
      simp_all
  · obtain ⟨r, hr, heq'⟩ := Option.map_eq_some_iff.mp h
    have := length_of_remark? hr
    simp_all
  · rename_i tail heq
    have := length_of_endTag? h
    simp_all
    omega
  · rename_i tail _ _ _ heq
    have := length_of_startTag? h
    simp_all
    omega
  · rename_i hlt
    exact length_of_textRun? (fun hc => hlt cs (by rw [hc])) h

/-- A token with the piece of the document that it was taken from. -/
structure Placed where
  token : Token
  span : Span
deriving DecidableEq, Repr

/-- How many elements are open behind a token, of which `depth` were open before it. -/
def Token.depthAfter (depth : Nat) : Token → Nat
  | .start _ _ .content => depth + 1
  | .start _ _ .empty => depth
  | .start _ _ .missing => depth
  | .stop _ => depth - 1
  | _ => depth

/-- Takes the tokens up to the end of the outermost element, or to the end of the input. -/
def tokens? (depth : Nat) (cs : List Char) : Option (List Placed × List Char) :=
  match cs with
  | [] => some ([], [])
  | c :: tail =>
    match _h : Token.next? (c :: tail) with
    | some (token, rest) =>
      let placed : Placed := ⟨token, ⟨c :: tail, rest⟩⟩
      if token.depthAfter depth = 0 then some ([placed], rest)
      else (tokens? (token.depthAfter depth) rest).map fun (tokens, rest) =>
        (placed :: tokens, rest)
    | none => none
termination_by cs.length
decreasing_by exact Token.length_of_next? _h

end RoundRobin.Markup
