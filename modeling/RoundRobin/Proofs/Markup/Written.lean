import RoundRobin.Loader

/-! How elements are written. A start tag holds no mark that opens or closes another tag, whatever
stands in its attributes, and a whole element ends as an empty tag does or holds an end tag. So the
text of an element tells whether it is closed. -/

namespace RoundRobin.Markup

/-- The name in the tags of an element: its tag, which a qualifier and a colon may precede. -/
structure IsTagName (tag : String) (name : List Char) : Prop where
  chars : ∀ c ∈ name, isNamePart c = true ∨ c = ':'
  nonempty : name ≠ []
  base : name = tag.toList ∨ ∃ qualifier, name = qualifier ++ ':' :: tag.toList

/-- Spaces, an attribute and its value between quotation marks, in which no tag opens. -/
def IsAttribute (piece : List Char) : Prop :=
  ∃ spaces name equals value quote,
    piece = spaces ++ name ++ equals ++ quote :: value ++ [quote] ∧
    (∀ c ∈ spaces, isSpace c = true) ∧ (∀ c ∈ name, isNamePart c = true ∨ c = ':') ∧
    (∀ c ∈ equals, isSpace c = true ∨ c = '=') ∧ '<' ∉ value ∧ (quote = '"' ∨ quote = '\'')

/-- What stands behind the name in a tag, up to the mark that ends it. -/
inductive AreAttributes : List Char → Prop
  | spaces {piece : List Char} (h : ∀ c ∈ piece, isSpace c = true) : AreAttributes piece
  | cons {piece pieces : List Char} (h : IsAttribute piece) (behind : AreAttributes pieces) :
    AreAttributes (piece ++ pieces)

/-- The tag that opens an element. -/
def IsStartTag (tag : String) (piece : List Char) : Prop :=
  ∃ name attributes, IsTagName tag name ∧ AreAttributes attributes ∧
    piece = '<' :: name ++ attributes ++ ['>']

/-- The tag that is a whole element. -/
def IsEmptyTag (tag : String) (piece : List Char) : Prop :=
  ∃ name attributes, IsTagName tag name ∧ AreAttributes attributes ∧
    piece = '<' :: name ++ attributes ++ ['/', '>']

def IsEndTag (tag : String) (piece : List Char) : Prop :=
  ∃ name spaces, IsTagName tag name ∧ (∀ c ∈ spaces, isSpace c = true) ∧
    piece = '<' :: '/' :: name ++ spaces ++ ['>']

/-- A closed element: an empty tag, or all from a start tag to an end tag. -/
inductive IsWhole (tag : String) : List Char → Prop
  | empty {piece : List Char} (h : IsEmptyTag tag piece) : IsWhole tag piece
  | closed {first content last : List Char} (hfirst : IsStartTag tag first)
    (hlast : IsEndTag tag last) :
    IsWhole tag (first ++ content ++ last)

/-- Part of a tag: nothing opens in it, and it does not end in a slash. -/
structure Plain (piece : List Char) : Prop where
  unopened : '<' ∉ piece
  last : piece.getLast? ≠ some '/'

section Plain

variable {tag : String} {piece other name : List Char}

theorem Plain.of_forall (h : ∀ c ∈ piece, c ≠ '<' ∧ c ≠ '/') : Plain piece :=
  ⟨fun hmem => (h _ hmem).1 rfl, fun hlast => (h _ (List.mem_of_getLast? hlast)).2 rfl⟩

theorem Plain.append (h : Plain piece) (h' : Plain other) : Plain (piece ++ other) := by
  refine ⟨fun hmem => (List.mem_append.mp hmem).elim h.unopened h'.unopened, ?_⟩
  rw [List.getLast?_append]
  cases hlast : other.getLast? with
  | none => exact h.last
  | some c => exact fun hc => h'.last (hlast.trans hc)

theorem ne_marks_of_space {c : Char} (h : isSpace c = true) : c ≠ '<' ∧ c ≠ '/' := by
  constructor <;>
    · rintro rfl
      exact absurd h (by decide)

theorem ne_marks_of_name {c : Char} (h : isNamePart c = true ∨ c = ':') : c ≠ '<' ∧ c ≠ '/' := by
  constructor <;>
    · rintro rfl
      exact absurd h (by decide)

theorem IsTagName.plain (h : IsTagName tag name) : Plain name :=
  .of_forall fun c hc => ne_marks_of_name (h.chars c hc)

theorem IsAttribute.plain (h : IsAttribute piece) : Plain piece := by
  obtain ⟨spaces, name, equals, value, quote, rfl, hspaces, hname, hequals, hvalue, hquote⟩ := h
  have hmark : quote ≠ '<' ∧ quote ≠ '/' := by rcases hquote with rfl | rfl <;> decide
  have hsign : ∀ c ∈ equals, c ≠ '<' ∧ c ≠ '/' := fun c hc => by
    rcases hequals c hc with hspace | rfl
    · exact ne_marks_of_space hspace
    · decide
  have hquoted : Plain (quote :: value ++ [quote]) := by
    refine ⟨?_, ?_⟩
    · simp [hvalue, hmark.1.symm]
    · rw [List.getLast?_concat]
      exact fun heq => hmark.2 (Option.some.inj heq)
  have hbefore : Plain (spaces ++ name ++ equals) :=
    ((Plain.of_forall fun c hc => ne_marks_of_space (hspaces c hc)).append
      (.of_forall fun c hc => ne_marks_of_name (hname c hc))).append (.of_forall hsign)
  simpa using hbefore.append hquoted

theorem AreAttributes.plain (h : AreAttributes piece) : Plain piece := by
  induction h with
  | spaces h => exact .of_forall fun c hc => ne_marks_of_space (h c hc)
  | cons h _ ih => exact h.plain.append ih

end Plain

section Closed

variable {mark cs piece : List Char} {tag : String} {element : Element}

theorem isSome_cutAt?_iff (h : mark ≠ []) : (cutAt? mark cs).isSome = true ↔ mark <:+: cs := by
  induction cs with
  | nil => simp [cutAt?, h]
  | cons c cs ih =>
    unfold cutAt?
    rw [List.infix_cons_iff]
    split
    · rename_i rest hrest
      exact iff_of_true rfl (.inl ⟨rest, (strip?_eq_some_iff.mp hrest).symm⟩)
    · rename_i hnone
      have hprefix : ¬ mark <+: c :: cs := by
        rintro ⟨rest, hrest⟩
        rw [strip?_eq_some_iff.mpr hrest.symm] at hnone
        cases hnone
      rw [Option.isSome_map, ih, or_iff_right hprefix]

theorem Span.text_eq {span : Span} (h : span.start = piece ++ span.behind) : span.text = piece := by
  rw [Span.text, h, List.length_append, Nat.add_sub_cancel, List.take_left]

/-- An element looks closed as its text ends and for the end tags in it. -/
theorem Element.looksClosed_iff : element.looksClosed = true ↔
    ['/', '>'] <:+ element.span.text ∨ ['<', '/'] <:+: element.span.text := by
  have hmarks : "</".toList = ['<', '/'] ∧ "/>".toList = ['/', '>'] := by decide
  rw [Element.looksClosed, Bool.or_eq_true, List.isSuffixOf_iff_suffix, occurs, hmarks.1, hmarks.2,
    isSome_cutAt?_iff (List.cons_ne_nil _ _)]

/-- The text of a start tag does not look closed: a slash before its last mark would make it an
empty tag, and no tag opens in it. -/
theorem looksClosed_of_startTag (h : IsStartTag tag element.span.text) :
    element.looksClosed = false := by
  obtain ⟨name, attributes, hname, hattributes, hpiece⟩ := h
  have hplain : Plain (name ++ attributes) := hname.plain.append hattributes.plain
  refine Bool.eq_false_iff.mpr fun hclosed => ?_
  rw [Element.looksClosed_iff, hpiece] at hclosed
  rcases hclosed with ⟨before, hbefore⟩ | hholds
  · have hends : before ++ ['/'] ++ ['>'] = '<' :: (name ++ attributes) ++ ['>'] := by
      simpa using hbefore
    have hslash : before ++ ['/'] = '<' :: (name ++ attributes) := List.append_cancel_right hends
    have hlast := congrArg List.getLast? hslash
    cases hinside : name ++ attributes with
    | nil => simp [hinside] at hlast
    | cons c inside =>
      rw [hinside, List.getLast?_concat, List.getLast?_cons_cons] at hlast
      exact hplain.last (hinside ▸ hlast.symm)
  · rcases List.infix_cons_iff.mp hholds with ⟨tail, htail⟩ | hinside
    · obtain ⟨c, rest, rfl⟩ := List.exists_cons_of_ne_nil hname.nonempty
      have hslash : '/' = c := (List.cons.inj (List.cons.inj htail).2).1
      exact (ne_marks_of_name (hname.chars c (.head _))).2 hslash.symm
    · have hopened : '<' ∈ name ++ attributes ++ ['>'] := hinside.subset (.head _)
      exact hplain.unopened (by simpa using hopened)

theorem looksClosed_of_whole (h : IsWhole tag element.span.text) : element.looksClosed = true := by
  rw [Element.looksClosed_iff]
  generalize element.span.text = piece at h
  cases h with
  | empty h =>
    obtain ⟨name, attributes, -, -, rfl⟩ := h
    exact .inl (List.suffix_append _ _)
  | @closed first content _ _ hlast =>
    obtain ⟨name, spaces, -, -, rfl⟩ := hlast
    exact .inr ⟨first ++ content, name ++ spaces ++ ['>'], by simp⟩

end Closed

end RoundRobin.Markup
