import RoundRobin.Proofs.Markup.Growth

/-! Documents that end inside an element. Such a document is refused at its root, and no other is.
That is so whichever reader gives the elements of a document, if their places are as they are
written. -/

namespace RoundRobin.Markup

/-- What a reader of documents gives: the elements of the text with their places. An element that is
still open where the text ends spans its start tag only, and another all from its start tag to the
end of its end tag. -/
structure SpansElements (read? : Reader) (isOpen : Document → Element → Prop) : Prop where
  text : ∀ {text document}, read? text = some document → document.text = text.toList
  root : ∀ {text document}, read? text = some document →
    document.root.span.start <:+ document.text
  opened : ∀ {text document}, read? text = some document →
    ∀ element ∈ document.root.descendants, isOpen document element →
      IsStartTag element.tag element.span.text
  whole : ∀ {text document}, read? text = some document →
    ∀ element ∈ document.root.descendants, ¬ isOpen document element →
      IsWhole element.tag element.span.text
  /-- The root is closed behind all that is in it. -/
  outermost : ∀ {text document}, read? text = some document →
    ∀ element ∈ document.root.descendants, isOpen document element → isOpen document document.root

/-- A reader that gives the elements of a closed document as their start tags stand. -/
structure OrdersElements (read? : Reader) (isOpen : Document → Element → Prop) : Prop
    extends SpansElements read? isOpen where
  inOrder : ∀ {text document}, read? text = some document →
    (∀ element ∈ document.root.descendants, ¬ isOpen document element) →
      document.root.descendants.Pairwise Element.StartsBefore

namespace Document

variable {read? : Reader} {isOpen : Document → Element → Prop}
  {document : Document} {text : String}

theorem checkClosed_of_open (h : document.root.looksClosed = false) : document.checkClosed =
    .error (.unclosed document.root.tag (lineAfter (document.before document.root.span))
      (columnAfter (document.before document.root.span))) := by
  rw [checkClosed, Element.descendants_eq, List.find?_cons_of_pos (by simp [h])]

theorem checkClosed_of_closed
    (h : ∀ element ∈ document.root.descendants, element.looksClosed = true) :
    document.checkClosed = .ok () := by
  have hnone : document.root.descendants.find? (fun element => !element.looksClosed) = none :=
    List.find?_eq_none.mpr fun element helement => by simp [h element helement]
  rw [checkClosed, hnone]

/-- The text before the root. -/
theorem before_root {body before : List Char} (htext : document.text = before ++ body)
    (hstart : document.root.span.start = body) : document.before document.root.span = before := by
  rw [Document.before, htext, hstart, List.length_append, Nat.add_sub_cancel, List.take_left]

/-- If an element is open, the root does not look closed. -/
theorem looksClosed_root_of_open (hspans : SpansElements read? isOpen)
    (h : read? text = some document)
    {element : Element} (hmem : element ∈ document.root.descendants)
    (hopen : isOpen document element) :
    document.root.looksClosed = false :=
  looksClosed_of_startTag
    (hspans.opened h _ document.root.mem_descendants (hspans.outermost h element hmem hopen))

theorem looksClosed_of_not_open (hspans : SpansElements read? isOpen)
    (h : read? text = some document)
    (hclosed : ∀ element ∈ document.root.descendants, ¬ isOpen document element) :
    ∀ element ∈ document.root.descendants, element.looksClosed = true := fun element hmem =>
  looksClosed_of_whole (hspans.whole h element hmem (hclosed element hmem))

/-- A document is refused if an element is still open where it ends, and then at its root, which is
named with the place of its first character. No other document is refused. -/
theorem checkClosed_of_read (hspans : SpansElements read? isOpen) (h : read? text = some document) :
    ((∃ element ∈ document.root.descendants, isOpen document element) →
      ∃ before name behind, text.toList = before ++ '<' :: name ++ behind ∧
        IsTagName document.root.tag name ∧ document.root.span.start = '<' :: name ++ behind ∧
        Tournament.readBy read? text =
          .error (.unclosed document.root.tag (lineAfter before) (columnAfter before))) ∧
    ((∀ element ∈ document.root.descendants, ¬ isOpen document element) →
      document.checkClosed = .ok ()) := by
  refine ⟨fun ⟨element, hmem, hopen⟩ => ?_, fun hclosed =>
    checkClosed_of_closed (looksClosed_of_not_open hspans h hclosed)⟩
  obtain ⟨name, attributes, hname, -, htag⟩ :=
    hspans.opened h _ document.root.mem_descendants (hspans.outermost h element hmem hopen)
  obtain ⟨behind, hstart⟩ : document.root.span.text <+: document.root.span.start :=
    List.take_prefix _ _
  obtain ⟨before, hbefore⟩ := hspans.root h
  rw [hspans.text h] at hbefore
  have hstart : document.root.span.start = '<' :: name ++ (attributes ++ '>' :: behind) := by
    rw [← hstart, htag]
    simp
  refine ⟨before, name, _, ?_, hname, hstart, ?_⟩
  · rw [← hbefore, hstart]
    simp
  · rw [Tournament.readBy, h]
    show Tournament.ofDocument document = _
    rw [Tournament.ofDocument, checkClosed_of_open (looksClosed_root_of_open hspans h hmem hopen),
      before_root ((hspans.text h).trans hbefore.symm) rfl]
    rfl

end Document

/-- A text that ends inside an element: fewer elements are closed in it than opened. -/
def EndsInside (text : String) : Prop :=
  (skipProlog? text.toList >>= tokens? 0).any fun (tokens, _) =>
    tokens.countP (·.token.closes) < tokens.countP (·.token.opens)

instance (text : String) : Decidable (EndsInside text) := inferInstanceAs (Decidable (_ = true))

section Reader

variable {text : String} {document : Document}

theorem Settled.not_isOpen {start rest : List Char} {elements : List Element}
    (h : Settled start rest elements) : ∀ element ∈ elements, ¬ element.IsOpen := by
  intro element hmem hopen
  exact Bool.false_ne_true
    ((looksClosed_of_startTag hopen.startTag).symm.trans
      (looksClosed_of_whole (h.whole element hmem)))

/-- Where a text that was read ends is known by its tags. -/
theorem Document.exists_isOpen_iff (h : Document.read? text = some document) :
    (∃ element ∈ document.root.descendants, element.IsOpen) ↔ EndsInside text := by
  obtain ⟨-, body, tokens, behind, hbody, htokens, -, hgrown⟩ := Document.of_read h
  have hread : (skipProlog? text.toList >>= tokens? 0) = some (tokens, behind) := by
    rw [hbody]
    exact htokens
  rw [EndsInside, hread, Option.any_some, decide_eq_true_eq]
  rcases hgrown with ⟨hlt, hopen, -⟩ | ⟨heq, rest, hsettled⟩
  · exact iff_of_true ⟨_, document.root.mem_descendants, hopen⟩ hlt
  · exact iff_of_false (fun ⟨element, hmem, hopen⟩ => hsettled.not_isOpen element hmem hopen)
      heq.not_lt

theorem ordersElements_read : OrdersElements Document.read? fun _ => Element.IsOpen where
  text h := (Document.of_read h).1
  root {text document} h := by
    obtain ⟨htext, body, _, _, hbody, -, hstart, -⟩ := Document.of_read h
    rw [htext, hstart]
    exact suffix_of_skipProlog? hbody
  opened _ _ _ hopen := hopen.startTag
  whole {text document} h element hmem hclosed := by
    obtain ⟨-, _, _, _, -, -, -, ⟨-, -, hall⟩ | ⟨-, rest, hsettled⟩⟩ := Document.of_read h
    · exact (hall element hmem).resolve_left hclosed
    · exact hsettled.whole element hmem
  outermost {text document} h element hmem hopen := by
    obtain ⟨-, _, _, _, -, -, -, ⟨-, hroot, -⟩ | ⟨-, rest, hsettled⟩⟩ := Document.of_read h
    · exact hroot
    · exact absurd hopen (hsettled.not_isOpen element hmem)
  inOrder {text document} h hclosed := by
    obtain ⟨-, _, _, _, -, -, -, ⟨-, hroot, -⟩ | ⟨-, rest, hsettled⟩⟩ := Document.of_read h
    · exact absurd hroot (hclosed _ document.root.mem_descendants)
    · exact hsettled.ordered

end Reader

/-- The document ends in a slot, and marks that end other tags stand in the attributes before it. -/
def cutText : String :=
  "<?xml version=\"1.0\"?>\n  <Instance note=\"/>\"><team id=\"0\"/><!-- </Instance> -->"
    ++ "<Slots><slot id=\">\">"

/-- The document with the end tags that it lacks. -/
def mendedText : String := cutText ++ "<![CDATA[</]]></slot></Slots></Instance>"

/-- The cut document is refused at its root, in the second line, and the mended one is not. -/
theorem checkClosed_cutText :
    (∃ document, Document.read? cutText = some document ∧
      Tournament.read cutText = .error (.unclosed "Instance" 2 3)) ∧
    ∃ document, Document.read? mendedText = some document ∧ document.checkClosed = .ok () := by
  have hcut : (Document.read? cutText).map (fun document =>
      let before := document.before document.root.span
      (document.root.tag, lineAfter before, columnAfter before)) = some ("Instance", 2, 3) := by
    decide +kernel
  have hmended : (Document.read? mendedText).isSome = true := by decide +kernel
  obtain ⟨document, hread, hplace⟩ := Option.map_eq_some_iff.mp hcut
  obtain ⟨mended, hmended⟩ := Option.isSome_iff_exists.mp hmended
  have hends : EndsInside cutText := by decide +kernel
  have hclosed : ¬ EndsInside mendedText := by decide +kernel
  obtain ⟨before, name, behind, htext, -, hstart, herror⟩ :=
    (Document.checkClosed_of_read ordersElements_read.toSpansElements hread).1
      ((Document.exists_isOpen_iff hread).mpr hends)
  have hbefore : document.before document.root.span = before :=
    Document.before_root
      ((Document.of_read hread).1.trans (htext.trans (List.append_assoc ..))) hstart
  rw [hbefore] at hplace
  obtain ⟨htag, hline, hcolumn⟩ : document.root.tag = "Instance" ∧ lineAfter before = 2 ∧
      columnAfter before = 3 := by simpa using hplace
  rw [htag, hline, hcolumn] at herror
  refine ⟨⟨document, hread, herror⟩, mended, hmended,
    (Document.checkClosed_of_read ordersElements_read.toSpansElements hmended).2
      fun element hmem hopen => ?_⟩
  exact hclosed ((Document.exists_isOpen_iff hmended).mp ⟨element, hmem, hopen⟩)

end RoundRobin.Markup
