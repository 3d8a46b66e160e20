import Mathlib.Data.List.TakeWhile
import Mathlib.Tactic.Common
import RoundRobin.Proofs.Markup.Written

/-! Where tokens stand in a document. Each step leaves the end of what it was given, and tags are
written as tags are. -/

namespace RoundRobin.Markup

section Tags

variable {cs rest : List Char}

theorem exists_spaces (cs : List Char) :
    ∃ spaces, (∀ c ∈ spaces, isSpace c = true) ∧ cs = spaces ++ skipSpaces cs :=
  ⟨cs.takeWhile isSpace, fun _ hc => List.mem_takeWhile_imp hc,
    List.takeWhile_append_dropWhile.symm⟩

theorem exists_name_of_read? {name : Name} (h : Name.read? cs = some (name, rest)) :
    ∃ piece, IsTagName name.base piece ∧ cs = piece ++ rest := by
  have hpart : ∀ cs : List Char, ∀ c ∈ cs.takeWhile isNamePart, isNamePart c = true ∨ c = ':' :=
    fun _ _ hc => .inl (List.mem_takeWhile_imp hc)
  have hsplit : cs = cs.takeWhile isNamePart ++ cs.dropWhile isNamePart :=
    List.takeWhile_append_dropWhile.symm
  unfold Name.read? at h
  dsimp only at h
  split at h
  · rename_i tail hdrop
    split_ifs at h
    obtain ⟨rfl, rfl⟩ := Prod.mk.inj (Option.some.inj h)
    refine ⟨cs.takeWhile isNamePart ++ ':' :: tail.takeWhile isNamePart, ⟨fun c hc => ?_, by simp,
      .inr ⟨_, by rw [String.toList_ofList]⟩⟩, ?_⟩
    · rcases List.mem_append.mp hc with hc | hc
      · exact hpart cs c hc
      · exact (List.mem_cons.mp hc).elim .inr (hpart tail c)
    · rw [List.append_assoc, List.cons_append, List.takeWhile_append_dropWhile, ← hdrop]
      exact hsplit
  · split_ifs at h with hstart
    obtain ⟨rfl, rfl⟩ := Prod.mk.inj (Option.some.inj h)
    refine ⟨_, ⟨hpart cs, fun hnone => ?_, .inl (by rw [String.toList_ofList])⟩, hsplit⟩
    rw [hnone] at hstart
    exact Bool.false_ne_true hstart

theorem exists_equals_of_equals? (h : equals? cs = some rest) :
    ∃ piece, (∀ c ∈ piece, isSpace c = true ∨ c = '=') ∧ cs = piece ++ rest := by
  obtain ⟨tail, htail, rfl⟩ := Option.map_eq_some_iff.mp h
  have hequals : skipSpaces cs = '=' :: tail := strip?_eq_some_iff.mp htail
  obtain ⟨before, hbefore, hcs⟩ := exists_spaces cs
  obtain ⟨after, hafter, htail⟩ := exists_spaces tail
  refine ⟨before ++ '=' :: after, fun c hc => ?_, ?_⟩
  · rcases List.mem_append.mp hc with hc | hc
    · exact .inl (hbefore c hc)
    · exact (List.mem_cons.mp hc).elim .inr fun hc => .inl (hafter c hc)
  · rw [List.append_assoc, List.cons_append, ← htail, ← hequals]
    exact hcs

/-- A quoted text runs from its first quotation mark to the next. -/
theorem eq_of_closeQuote? {quote : Char} {allowed : Char → Bool} {value : List Char}
    (h : closeQuote? quote allowed cs = some (value, rest)) :
    cs = value ++ quote :: rest ∧ ∀ c ∈ value, allowed c = true := by
  unfold closeQuote? at h
  dsimp only at h
  split at h
  · rename_i c tail hdrop
    split_ifs at h with hquote
    obtain rfl := hquote
    obtain ⟨rfl, rfl⟩ := Prod.mk.inj (Option.some.inj h)
    refine ⟨?_, fun d hd => ?_⟩
    · rw [← hdrop, List.takeWhile_append_dropWhile]
    · have hinside := List.mem_takeWhile_imp hd
      exact (Bool.and_eq_true_iff.mp hinside).2
  · exact nomatch h

theorem exists_quote_of_quoted? {allowed : Char → Bool} {value : List Char}
    (h : quoted? allowed cs = some (value, rest)) : ∃ quote, (quote = '"' ∨ quote = '\'') ∧
      cs = quote :: value ++ quote :: rest ∧ ∀ c ∈ value, allowed c = true := by
  unfold quoted? at h
  split at h
  · obtain ⟨rfl, hvalue⟩ := eq_of_closeQuote? h
    exact ⟨_, .inl rfl, rfl, hvalue⟩
  · obtain ⟨rfl, hvalue⟩ := eq_of_closeQuote? h
    exact ⟨_, .inr rfl, rfl, hvalue⟩
  · exact nomatch h

theorem exists_attribute_of_read? {raw : RawAttribute} {spaces : List Char}
    (hspaces : ∀ c ∈ spaces, isSpace c = true) (h : RawAttribute.read? cs = some (raw, rest)) :
    ∃ piece, IsAttribute piece ∧ spaces ++ cs = piece ++ rest := by
  simp only [RawAttribute.read?, Option.bind_eq_bind, Option.bind_eq_some_iff] at h
  obtain ⟨⟨name, afterName⟩, hname, afterEquals, hequals, ⟨value, behind⟩, hquoted, h⟩ := h
  split_ifs at h
  obtain ⟨-, rfl⟩ := Prod.mk.inj (Option.some.inj h)
  obtain ⟨written, hwritten, rfl⟩ := exists_name_of_read? hname
  obtain ⟨equals, hsign, rfl⟩ := exists_equals_of_equals? hequals
  obtain ⟨quote, hquote, rfl, hvalue⟩ := exists_quote_of_quoted? hquoted
  have hunopened : '<' ∉ value := fun hmem => of_decide_eq_true (hvalue _ hmem) rfl
  exact ⟨_, ⟨spaces, written, equals, value, quote, rfl, hspaces, hwritten.chars, hsign,
    hunopened, hquote⟩, by simp⟩

/-- How attributes are read: the input ends, the tag ends, or an attribute comes first. -/
theorem attributes?_cases {raws : List RawAttribute} {ending : TagEnd}
    (h : attributes? cs = some (raws, ending, rest)) :
    (cs = [] ∧ ending = .missing ∧ rest = []) ∨ tagEnd? (skipSpaces cs) = some (ending, rest) ∨
    ∃ raw tail raws', RawAttribute.read? (skipSpaces cs) = some (raw, tail) ∧
      attributes? tail = some (raws', ending, rest) := by
  unfold attributes? at h
  split at h
  · rename_i hnil
    obtain ⟨-, rfl, rfl⟩ := h
    exact .inl ⟨hnil, rfl, rfl⟩
  · split at h
    · rename_i hend
      obtain ⟨-, rfl, rfl⟩ := h
      exact .inr (.inl hend)
    · split_ifs at h
      split at h
      · rename_i raw tail hread
        obtain ⟨⟨raws', ending', rest'⟩, htail, heq⟩ := Option.map_eq_some_iff.mp h
        obtain ⟨-, rfl, rfl⟩ := heq
        exact .inr (.inr ⟨raw, tail, raws', hread, htail⟩)
      · cases h

/-- Behind the name of a start tag there are attributes up to the mark that ends the tag. -/
theorem exists_attributes_of_attributes? {raws : List RawAttribute} {ending : TagEnd}
    (h : attributes? cs = some (raws, ending, rest)) : (ending = .missing ∧ rest = []) ∨
      ∃ piece mark, AreAttributes piece ∧ cs = piece ++ mark ∧
        tagEnd? mark = some (ending, rest) := by
  induction hlength : cs.length using Nat.strongRecOn generalizing cs raws with
  | ind n ih =>
    obtain ⟨spaces, hspaces, hcs⟩ := exists_spaces cs
    rcases attributes?_cases h with ⟨-, hmissing⟩ | hend | ⟨raw, tail, raws', hread, htail⟩
    · exact .inl hmissing
    · exact .inr ⟨spaces, _, .spaces hspaces, hcs, hend⟩
    · have hshort : tail.length < n :=
        hlength ▸ (length_of_readAttribute? hread).trans_le (length_skipSpaces_le cs)
      obtain ⟨first, hfirst, hsplit⟩ := exists_attribute_of_read? hspaces hread
      rcases ih _ hshort htail rfl with hmissing | ⟨piece, mark, hpiece, rfl, hend⟩
      · exact .inl hmissing
      · refine .inr ⟨first ++ piece, mark, .cons hfirst hpiece, ?_, hend⟩
        rw [hcs, hsplit, List.append_assoc]

end Tags

/-- Where tokens of each kind stand. -/
inductive Token.Stands : Token → Span → Prop
  | opening {name : Name} {raws : List RawAttribute} {piece rest : List Char}
    (h : IsStartTag name.base piece) : Stands (.start name raws .content) ⟨piece ++ rest, rest⟩
  | empty {name : Name} {raws : List RawAttribute} {piece rest : List Char}
    (h : IsEmptyTag name.base piece) : Stands (.start name raws .empty) ⟨piece ++ rest, rest⟩
  | missing {name : Name} {raws : List RawAttribute} {cs : List Char} :
    Stands (.start name raws .missing) ⟨cs, []⟩
  | stop {name : Name} {piece rest : List Char} (h : IsEndTag name.base piece) :
    Stands (.stop name) ⟨piece ++ rest, rest⟩
  | text {raw cs rest : List Char} (h : rest <:+ cs) : Stands (.text raw) ⟨cs, rest⟩
  | cdata {content cs rest : List Char} (h : rest <:+ cs) : Stands (.cdata content) ⟨cs, rest⟩
  | remark {cs rest : List Char} (h : rest <:+ cs) : Stands .remark ⟨cs, rest⟩

section Token

variable {cs rest : List Char} {token : Token} {name : Name} {raws : List RawAttribute}
  {ending : TagEnd}

theorem eq_of_cutAt? {mark before : List Char} (h : cutAt? mark cs = some (before, rest)) :
    cs = before ++ mark ++ rest := by
  induction cs generalizing before with
  | nil => exact nomatch h
  | cons c cs ih =>
    unfold cutAt? at h
    split at h
    · rename_i hstrip
      obtain ⟨rfl, rfl⟩ := Prod.mk.inj (Option.some.inj h)
      exact strip?_eq_some_iff.mp hstrip
    · obtain ⟨⟨before', rest'⟩, hcut, heq⟩ := Option.map_eq_some_iff.mp h
      obtain ⟨rfl, rfl⟩ := Prod.mk.inj heq
      rw [ih hcut]
      rfl

theorem suffix_of_expect? {text : String} (h : expect? text cs = some rest) : rest <:+ cs :=
  ⟨_, (strip?_eq_some_iff.mp h).symm⟩

theorem suffix_of_cutAt? {mark before : List Char} (h : cutAt? mark cs = some (before, rest)) :
    rest <:+ cs :=
  ⟨_, (eq_of_cutAt? h).symm⟩

theorem suffix_skipSpaces (cs : List Char) : skipSpaces cs <:+ cs := List.dropWhile_suffix isSpace

theorem suffix_of_skipName? (h : skipName? cs = some rest) : rest <:+ cs := by
  unfold skipName? at h
  split at h
  · split_ifs at h
    obtain rfl := Option.some.inj h
    exact (List.dropWhile_suffix _).trans (List.suffix_cons _ _)
  · exact nomatch h

theorem suffix_of_comment? (h : comment? cs = some rest) : rest <:+ cs := by
  unfold comment? at h
  split at h
  · rename_i hcut
    split_ifs at h
    obtain rfl := Option.some.inj h
    exact suffix_of_cutAt? hcut
  · exact nomatch h

theorem suffix_of_instruction? (h : instruction? cs = some rest) : rest <:+ cs := by
  unfold instruction? at h
  split_ifs at h
  split at h
  · rename_i afterName hname
    split at h
    · rename_i hcut
      split_ifs at h
      obtain rfl := Option.some.inj h
      exact (suffix_of_cutAt? hcut).trans ((suffix_skipSpaces _).trans (suffix_of_skipName? hname))
    · exact nomatch h
  · exact nomatch h

theorem suffix_of_remark? (h : remark? cs = some rest) : rest <:+ cs := by
  unfold remark? at h
  split at h
  · rename_i hopen
    exact (suffix_of_comment? h).trans (suffix_of_expect? hopen)
  · rename_i hopen
    exact (suffix_of_instruction? h).trans (suffix_of_expect? hopen)
  · exact nomatch h

theorem suffix_of_cdata? (h : cdata? cs = some (token, rest)) :
    rest <:+ cs ∧ ∃ content, token = .cdata content := by
  unfold cdata? at h
  split at h
  · rename_i hcut
    split_ifs at h
    obtain ⟨rfl, rfl⟩ := Prod.mk.inj (Option.some.inj h)
    exact ⟨suffix_of_cutAt? hcut, _, rfl⟩
  · exact nomatch h

theorem exists_endTag_of_endTag? (h : endTag? cs = some (token, rest)) :
    ∃ name piece, token = .stop name ∧ IsEndTag name.base piece ∧
      '<' :: '/' :: cs = piece ++ rest := by
  unfold endTag? at h
  split at h
  · rename_i name afterName hname
    obtain ⟨rest', hend, heq⟩ := Option.map_eq_some_iff.mp h
    obtain ⟨rfl, rfl⟩ := Prod.mk.inj heq
    obtain ⟨written, hwritten, rfl⟩ := exists_name_of_read? hname
    obtain ⟨spaces, hspaces, hafter⟩ := exists_spaces afterName
    have hmark : skipSpaces afterName = '>' :: rest' := strip?_eq_some_iff.mp hend
    refine ⟨name, _, rfl, ⟨written, spaces, hwritten, hspaces, rfl⟩, ?_⟩
    rw [hafter, hmark]
    simp
  · exact nomatch h

theorem suffix_of_textRun? (h : textRun? cs = some (token, rest)) :
    rest <:+ cs ∧ ∃ raw, token = .text raw := by
  unfold textRun? at h
  dsimp only at h
  split_ifs at h
  obtain ⟨rfl, rfl⟩ := Prod.mk.inj (Option.some.inj h)
  exact ⟨List.dropWhile_suffix _, _, rfl⟩

/-- Behind the opening mark of a start tag there are a name and attributes up to the mark that ends
the tag. -/
theorem exists_of_startTag? (h : startTag? cs = some (token, rest)) :
    ∃ name raws ending, token = .start name raws ending ∧ ((ending = .missing ∧ rest = []) ∨
      ∃ written attributes mark, IsTagName name.base written ∧ AreAttributes attributes ∧
        cs = written ++ attributes ++ mark ∧ tagEnd? mark = some (ending, rest)) := by
  unfold startTag? at h
  split at h
  · rename_i name afterName hname
    obtain ⟨⟨raws, ending, rest'⟩, hattributes, heq⟩ := Option.map_eq_some_iff.mp h
    obtain ⟨rfl, rfl⟩ := Prod.mk.inj heq
    obtain ⟨written, hwritten, rfl⟩ := exists_name_of_read? hname
    refine ⟨name, raws, ending, rfl, (exists_attributes_of_attributes? hattributes).imp_right ?_⟩
    rintro ⟨attributes, mark, hpieces, rfl, hend⟩
    exact ⟨written, attributes, mark, hwritten, hpieces, (List.append_assoc ..).symm, hend⟩
  · exact nomatch h

theorem eq_of_tagEnd? (h : tagEnd? cs = some (ending, rest)) :
    (ending = .empty ∧ cs = '/' :: '>' :: rest) ∨ ending = .content ∧ cs = '>' :: rest := by
  unfold tagEnd? at h
  split at h
  · obtain ⟨rfl, rfl⟩ := Prod.mk.inj (Option.some.inj h)
    exact .inl ⟨rfl, rfl⟩
  · obtain ⟨rfl, rfl⟩ := Prod.mk.inj (Option.some.inj h)
    exact .inr ⟨rfl, rfl⟩
  · exact nomatch h

theorem Token.Stands.suffix {span : Span} (h : token.Stands span) : span.behind <:+ span.start := by
  cases h with
  | opening | empty | stop => exact List.suffix_append _ _
  | missing => exact List.nil_suffix
  | text h | cdata h | remark h => exact h

theorem stands_of_startTag? (h : startTag? cs = some (token, rest)) :
    token.Stands ⟨'<' :: cs, rest⟩ := by
  obtain ⟨name, raws, ending, rfl,
    ⟨rfl, rfl⟩ | ⟨written, attributes, mark, hwritten, hpieces, rfl, hend⟩⟩ := exists_of_startTag? h
  · exact .missing
  · rcases eq_of_tagEnd? hend with ⟨rfl, rfl⟩ | ⟨rfl, rfl⟩
    · have htag : IsEmptyTag name.base ('<' :: written ++ attributes ++ ['/', '>']) :=
        ⟨written, attributes, hwritten, hpieces, rfl⟩
      have hstands : (Token.start name raws .empty).Stands ⟨_ ++ rest, rest⟩ := .empty htag
      simpa using hstands
    · have htag : IsStartTag name.base ('<' :: written ++ attributes ++ ['>']) :=
        ⟨written, attributes, hwritten, hpieces, rfl⟩
      have hstands : (Token.start name raws .content).Stands ⟨_ ++ rest, rest⟩ := .opening htag
      simpa using hstands

theorem Token.stands_of_next? (h : Token.next? cs = some (token, rest)) :
    token.Stands ⟨cs, rest⟩ := by
  unfold Token.next? at h
  split at h
  · split at h
    · rename_i hopen
      obtain ⟨hsuffix, content, rfl⟩ := suffix_of_cdata? h
      have hbehind := hsuffix.trans (suffix_of_expect? hopen)
      exact .cdata (hbehind.trans ((List.suffix_cons ..).trans (List.suffix_cons ..)))
    · obtain ⟨_, hremark, heq⟩ := Option.map_eq_some_iff.mp h
      obtain ⟨rfl, rfl⟩ := Prod.mk.inj heq
      exact .remark (suffix_of_remark? hremark)
  · obtain ⟨_, hremark, heq⟩ := Option.map_eq_some_iff.mp h
    obtain ⟨rfl, rfl⟩ := Prod.mk.inj heq
    exact .remark (suffix_of_remark? hremark)
  · obtain ⟨name, piece, rfl, hend, hpiece⟩ := exists_endTag_of_endTag? h
    exact hpiece ▸ .stop hend
  · exact stands_of_startTag? h
  · obtain ⟨hsuffix, raw, rfl⟩ := suffix_of_textRun? h
    exact .text hsuffix

end Token

section Prolog

variable {cs rest : List Char}

theorem suffix_of_quoted? {allowed : Char → Bool} {value : List Char}
    (h : quoted? allowed cs = some (value, rest)) : rest <:+ cs := by
  obtain ⟨quote, -, rfl, -⟩ := exists_quote_of_quoted? h
  exact ⟨quote :: value ++ [quote], by simp⟩

theorem suffix_of_equals? (h : equals? cs = some rest) : rest <:+ cs := by
  obtain ⟨piece, -, rfl⟩ := exists_equals_of_equals? h
  exact List.suffix_append _ _

theorem suffix_skipByteOrderMark (cs : List Char) : skipByteOrderMark cs <:+ cs := by
  unfold skipByteOrderMark
  split
  · exact List.suffix_cons ..
  · exact List.suffix_rfl

theorem suffix_of_declarationValue? {valid : List Char → Bool}
    (h : declarationValue? valid cs = some rest) : rest <:+ cs := by
  simp only [declarationValue?, Option.bind_eq_bind, Option.bind_eq_some_iff] at h
  obtain ⟨afterEquals, hequals, ⟨value, behind⟩, hquoted, h⟩ := h
  split_ifs at h
  obtain rfl := Option.some.inj h
  exact (suffix_of_quoted? hquoted).trans (suffix_of_equals? hequals)

theorem suffix_of_separated? (h : separated? cs = some rest) : rest <:+ cs := by
  unfold separated? at h
  split_ifs at h
  obtain rfl := Option.some.inj h
  exact suffix_skipSpaces cs

theorem suffix_of_bind {first second : List Char → Option (List Char)}
    (hfirst : ∀ {cs rest}, first cs = some rest → rest <:+ cs)
    (hsecond : ∀ {cs rest}, second cs = some rest → rest <:+ cs)
    (h : (first cs).bind second = some rest) : rest <:+ cs := by
  obtain ⟨middle, hmiddle, hrest⟩ := Option.bind_eq_some_iff.mp h
  exact (hsecond hrest).trans (hfirst hmiddle)

theorem suffix_of_declarationEnd? (h : expect? "?>" (skipSpaces cs) = some rest) : rest <:+ cs :=
  (suffix_of_expect? h).trans (suffix_skipSpaces _)

/-- Behind the encoding, the rest of a declaration may say that the document stands alone. -/
theorem suffix_of_standalone? (h : (match expect? "standalone" cs with
      | some cs => (declarationValue? isYesOrNo cs).bind fun cs => expect? "?>" (skipSpaces cs)
      | none => expect? "?>" (skipSpaces cs)) = some rest) : rest <:+ cs := by
  split at h
  · rename_i hword
    exact (suffix_of_bind suffix_of_declarationValue? suffix_of_declarationEnd? h).trans
      (suffix_of_expect? hword)
  · exact suffix_of_declarationEnd? h

theorem suffix_of_skipDeclaration? (h : skipDeclaration? cs = some rest) : rest <:+ cs := by
  unfold skipDeclaration? at h
  split at h
  · obtain rfl := Option.some.inj h
    exact List.suffix_rfl
  · rename_i opened hopen
    simp only [Option.bind_eq_bind, Option.bind_some] at h
    obtain ⟨afterWord, hword, h⟩ := Option.bind_eq_some_iff.mp h
    obtain ⟨afterVersion, hversion, h⟩ := Option.bind_eq_some_iff.mp h
    obtain ⟨separated, hseparated, h⟩ := Option.bind_eq_some_iff.mp h
    have hbefore : separated <:+ cs := (suffix_of_separated? hseparated).trans
      ((suffix_of_declarationValue? hversion).trans ((suffix_of_expect? hword).trans
        ((suffix_skipSpaces opened).trans (suffix_of_expect? hopen))))
    refine List.IsSuffix.trans ?_ hbefore
    split at h
    · rename_i hencoding
      refine List.IsSuffix.trans ?_ (suffix_of_expect? hencoding)
      exact suffix_of_bind suffix_of_declarationValue?
        (suffix_of_bind suffix_of_separated? suffix_of_standalone?) h
    · exact suffix_of_standalone? h

theorem suffix_of_skipRemarks? (h : skipRemarks? cs = some rest) : rest <:+ cs := by
  induction cs using skipRemarks?.induct with
  | case1 =>
    rw [skipRemarks?] at h
    exact Option.some.inj h ▸ List.suffix_rfl
  | case2 c cs hspace ih =>
    rw [skipRemarks?, if_pos hspace] at h
    exact (ih h).trans (List.suffix_cons ..)
  | case3 c cs hspace hopen behind hremark ih =>
    rw [skipRemarks?, if_neg hspace, if_pos hopen] at h
    split at h
    · rename_i found hfound
      obtain rfl := Option.some.inj (hremark.symm.trans hfound)
      exact (ih h).trans (suffix_of_remark? hremark)
    · exact nomatch h
  | case4 c cs hspace hopen hremark =>
    rw [skipRemarks?, if_neg hspace, if_pos hopen] at h
    split at h
    · rename_i found hfound
      exact nomatch hremark.symm.trans hfound
    · exact nomatch h
  | case5 c cs hspace hopen =>
    rw [skipRemarks?, if_neg hspace, if_neg hopen] at h
    exact Option.some.inj h ▸ List.suffix_rfl

theorem suffix_of_skipLiteral? (h : skipLiteral? cs = some rest) : rest <:+ cs := by
  unfold skipLiteral? at h
  split_ifs at h
  obtain ⟨⟨value, behind⟩, hquoted, rfl⟩ := Option.map_eq_some_iff.mp h
  exact (suffix_of_quoted? hquoted).trans (suffix_skipSpaces cs)

theorem suffix_of_skipExternalId? (h : skipExternalId? cs = some rest) : rest <:+ cs := by
  unfold skipExternalId? at h
  split at h
  · rename_i hsystem
    exact (suffix_of_skipLiteral? h).trans (suffix_of_expect? hsystem)
  · rename_i hpublic
    exact (suffix_of_bind suffix_of_skipLiteral? suffix_of_skipLiteral? h).trans
      (suffix_of_expect? hpublic)
  · exact Option.some.inj h ▸ List.suffix_rfl

theorem suffix_of_skipDoctype? (h : skipDoctype? cs = some rest) : rest <:+ cs := by
  unfold skipDoctype? at h
  split at h
  · exact Option.some.inj h ▸ List.suffix_rfl
  · rename_i opened hopen
    split_ifs at h
    simp only [Option.bind_eq_bind, Option.bind_eq_some_iff] at h
    obtain ⟨afterName, hname, afterId, hid, hend⟩ := h
    have hnamed := (suffix_of_skipName? hname).trans (suffix_skipSpaces opened)
    have hidentified := (suffix_of_skipExternalId? hid).trans (suffix_skipSpaces afterName)
    have hended := (suffix_of_expect? hend).trans (suffix_skipSpaces afterId)
    exact hended.trans (hidentified.trans (hnamed.trans (suffix_of_expect? hopen)))

theorem suffix_of_skipProlog? (h : skipProlog? cs = some rest) : rest <:+ cs := by
  simp only [skipProlog?, Option.bind_eq_bind, Option.bind_eq_some_iff] at h
  obtain ⟨declared, hdeclared, remarked, hremarked, typed, htyped, hrest⟩ := h
  have hdeclaration := (suffix_of_skipDeclaration? hdeclared).trans (suffix_skipByteOrderMark cs)
  have htype := (suffix_of_skipDoctype? htyped).trans (suffix_of_skipRemarks? hremarked)
  exact (suffix_of_skipRemarks? hrest).trans (htype.trans hdeclaration)

end Prolog

end RoundRobin.Markup
