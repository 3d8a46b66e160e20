import RoundRobin.Proofs.Markup.Place

/-! How a document grows from its tokens. What is closed is written as a whole element, and what
stays open spans its start tag. Elements stand in the tree in the order of their start tags. -/

namespace RoundRobin.Markup

/-- An element that spans a start tag behind which it is open. -/
def Element.IsOpen (element : Element) : Prop :=
  ∃ name raws, element.tag = name.base ∧
    Token.next? element.span.start = some (.start name raws .content, element.span.behind)

theorem Token.Stands.startTag {name : Name} {raws : List RawAttribute} {span : Span}
    (h : (Token.start name raws .content).Stands span) : IsStartTag name.base span.text := by
  cases h with
  | opening h => rwa [Span.text_eq rfl]

theorem Element.IsOpen.startTag {element : Element} (h : element.IsOpen) :
    IsStartTag element.tag element.span.text := by
  obtain ⟨name, raws, htag, hnext⟩ := h
  exact htag ▸ (Token.stands_of_next? hnext).startTag

section Trees

theorem Element.descendants_eq (element : Element) :
    element.descendants = element :: Node.elementsBelow element.children := by
  cases element
  rfl

theorem Element.mem_descendants (element : Element) : element ∈ element.descendants := by
  rw [Element.descendants_eq]
  exact .head _

theorem Node.elementsBelow_append (nodes others : List Node) :
    Node.elementsBelow (nodes ++ others) =
    Node.elementsBelow nodes ++ Node.elementsBelow others := by
  induction nodes with
  | nil => rfl
  | cons node nodes ih => cases node <;> simp [Node.elementsBelow, ih]

theorem Node.elementsBelow_addText (content : String) (nodes : List Node) :
    Node.elementsBelow (Node.addText content nodes).reverse = Node.elementsBelow nodes.reverse := by
  unfold Node.addText
  split <;> simp [Node.elementsBelow_append, Node.elementsBelow]

/-- One text stands behind the start of another, which it ends. -/
def StandsBehind (rest cs : List Char) : Prop := rest <:+ cs ∧ rest.length < cs.length

/-- The start tag of an element stands before that of another. -/
def Element.StartsBefore (a b : Element) : Prop := StandsBehind b.span.start a.span.start

variable {start middle rest cs : List Char} {elements others : List Element} {element : Element}

theorem StandsBehind.trans_suffix (h : StandsBehind middle cs) (h' : rest <:+ middle) :
    StandsBehind rest cs :=
  ⟨h'.trans h.1, h'.length_le.trans_lt h.2⟩

/-- Elements that are closed between two places of a document, in the order of their start tags. -/
structure Settled (start rest : List Char) (elements : List Element) : Prop where
  whole : ∀ element ∈ elements, IsWhole element.tag element.span.text
  ordered : elements.Pairwise Element.StartsBefore
  behind : ∀ element ∈ elements, element.span.start <:+ start
  before : ∀ element ∈ elements, StandsBehind rest element.span.start

theorem settled_nil : Settled start rest [] := ⟨nofun, .nil, nofun, nofun⟩

theorem Settled.until (h : Settled start middle elements) (hrest : rest <:+ middle) :
    Settled start rest elements :=
  { h with before := fun element helement => (h.before element helement).trans_suffix hrest }

theorem Settled.append (h : Settled start middle elements) (h' : Settled middle rest others)
    (hstart : middle <:+ start) (hrest : rest <:+ middle) :
    Settled start rest (elements ++ others) where
  whole := List.forall_mem_append.mpr ⟨h.whole, h'.whole⟩
  ordered := List.pairwise_append.mpr ⟨h.ordered, h'.ordered, fun a ha b hb =>
    (h.before a ha).trans_suffix (h'.behind b hb)⟩
  behind := List.forall_mem_append.mpr ⟨h.behind, fun element helement =>
    (h'.behind element helement).trans hstart⟩
  before := List.forall_mem_append.mpr ⟨(h.until hrest).before, h'.before⟩

/-- An element is settled with what is settled behind its start tag. -/
theorem Settled.descendants (h : Settled middle rest (Node.elementsBelow element.children))
    (hwhole : IsWhole element.tag element.span.text)
    (hmiddle : StandsBehind middle element.span.start)
    (hrest : rest <:+ middle) : Settled element.span.start rest element.descendants := by
  have hfirst : Settled element.span.start middle [element] :=
    ⟨List.forall_mem_singleton.mpr hwhole, List.pairwise_singleton _ _,
      List.forall_mem_singleton.mpr List.suffix_rfl, List.forall_mem_singleton.mpr hmiddle⟩
  rw [Element.descendants_eq]
  exact hfirst.append h hmiddle.1 hrest

end Trees

/-- Whether a token opens an element. -/
def Token.opens : Token → Bool
  | .start _ _ .content => true
  | _ => false

/-- Whether a token closes an element. -/
def Token.closes : Token → Bool
  | .stop _ => true
  | _ => false

/-- A frame is open since its start tag, and what it holds so far is settled. -/
structure Frame.OpenAt (position : List Char) (frame : Frame) : Prop where
  startTag : ∃ raws, Token.next? frame.span.start =
    some (.start frame.name raws .content, frame.span.behind)
  since : position <:+ frame.span.behind
  children : Settled frame.span.behind position (Node.elementsBelow frame.children.reverse)

theorem Frame.OpenAt.isOpen {position : List Char} {frame : Frame} (h : frame.OpenAt position) :
    (frame.toElement frame.span.behind).IsOpen := by
  obtain ⟨raws, hstart⟩ := h.startTag
  exact ⟨frame.name, raws, rfl, hstart⟩

/-- What stands before the position in an open element is its start tag and more. -/
theorem Frame.OpenAt.exists_startTag {position : List Char} {frame : Frame}
    (h : frame.OpenAt position) :
    ∃ first, IsStartTag frame.name.base first ∧ frame.span.start = first ++ frame.span.behind := by
  obtain ⟨raws, hstart⟩ := h.startTag
  have hstands := Token.stands_of_next? hstart
  generalize frame.span.start = start, frame.span.behind = behind at hstands
  cases hstands with
  | opening h => exact ⟨_, h, rfl⟩

theorem standsBehind_of_startTag {position : List Char} {frame : Frame}
    (h : frame.OpenAt position) : StandsBehind frame.span.behind frame.span.start := by
  obtain ⟨_, ⟨name, attributes, -, -, rfl⟩, hstart⟩ := h.exists_startTag
  rw [hstart]
  refine ⟨List.suffix_append _ _, ?_⟩
  simp only [List.length_append, List.length_cons]
  omega

/-- Open elements at a position, the innermost first: each is open where the next starts, and the
body starts with the outermost. -/
inductive Stack (body : List Char) : List Frame → List Char → Prop
  | nil : Stack body [] body
  | cons {frame : Frame} {frames : List Frame} {position : List Char} (h : frame.OpenAt position)
    (outer : Stack body frames frame.span.start) : Stack body (frame :: frames) position

namespace Growth

/-- A tree that has grown up to a position before which its root does not end. -/
structure Open (body position : List Char) (growth : Growth) : Prop where
  root : growth.root = none
  stack : Stack body growth.frames position

/-- A tree whose root is the whole element that starts the body. -/
structure Whole (body : List Char) (growth : Growth) : Prop where
  frames : growth.frames = []
  root : ∃ root rest, growth.root = some root ∧ root.span.start = body ∧
    Settled body rest root.descendants

variable {growth growth' : Growth} {body position rest : List Char} {name : Name}
  {raws : List RawAttribute} {ending : TagEnd} {span : Span} {token : Token} {frame : Frame}
  {frames : List Frame}

/-- What a start tag makes of a tree. -/
theorem start?_cases (h : growth.start? name raws ending span = some growth') :
    (ending = .missing ∧ growth' = growth) ∨ ∃ attributes scope,
      (ending = .content ∧ growth' =
        { growth with frames := ⟨name, attributes, scope, span, []⟩ :: growth.frames }) ∨
      ending = .empty ∧ growth' =
        growth.attach (Frame.toElement ⟨name, attributes, scope, span, []⟩ span.behind) := by
  have hframe : ∀ {scope attributes frame}, frame? scope name attributes span = some frame →
      ∃ plain, frame = ⟨name, plain, scope, span, []⟩ := by
    intro scope attributes frame h
    obtain ⟨plain, -, h⟩ := Option.bind_eq_some_iff.mp h
    split_ifs at h
    exact ⟨plain, (Option.some.inj h).symm⟩
  unfold start? at h
  dsimp only at h
  split_ifs at h
  · exact nomatch h
  obtain ⟨attributes, -, h⟩ := Option.bind_eq_some_iff.mp h
  obtain ⟨declared, -, h⟩ := Option.bind_eq_some_iff.mp h
  cases ending with
  | missing => exact .inl ⟨rfl, (Option.some.inj h).symm⟩
  | content =>
    obtain ⟨frame, hfound, h⟩ := Option.bind_eq_some_iff.mp h
    obtain ⟨plain, rfl⟩ := hframe hfound
    exact .inr ⟨_, _, .inl ⟨rfl, (Option.some.inj h).symm⟩⟩
  | empty =>
    obtain ⟨frame, hfound, h⟩ := Option.bind_eq_some_iff.mp h
    obtain ⟨plain, rfl⟩ := hframe hfound
    exact .inr ⟨_, _, .inr ⟨rfl, (Option.some.inj h).symm⟩⟩

theorem stop?_cases (h : growth.stop? name span = some growth') :
    ∃ frame frames, growth.frames = frame :: frames ∧ frame.name = name ∧
      growth' = { growth with frames }.attach (frame.toElement span.behind) := by
  unfold stop? at h
  split at h
  · rename_i frame frames hframes
    split_ifs at h with hname
    exact ⟨frame, frames, hframes, hname, (Option.some.inj h).symm⟩
  · exact nomatch h

/-- An element that ends at the position goes into the innermost open one, or is the whole root. -/
theorem attach_cases (element : Element) (h : Stack body frames element.span.start)
    (hsettled : Settled element.span.start rest element.descendants)
    (hrest : rest <:+ element.span.start) :
    let grown := ({ frames, root := none } : Growth).attach element
    grown.frames.length = frames.length ∧ (grown.Open body rest ∨ grown.Whole body) := by
  cases h with
  | nil => exact ⟨rfl, .inr ⟨rfl, element, rest, rfl, rfl, hsettled⟩⟩
  | @cons frame frames _ hframe houter =>
    refine ⟨rfl, .inl ⟨rfl, .cons ?_ houter⟩⟩
    refine ⟨hframe.startTag, hrest.trans hframe.since, ?_⟩
    have hnodes : Node.elementsBelow (.element element :: frame.children).reverse =
        Node.elementsBelow frame.children.reverse ++ element.descendants := by
      simp [Node.elementsBelow_append, Node.elementsBelow]
    rw [hnodes]
    exact hframe.children.append hsettled hframe.since hrest

/-- What a tree can be like behind a token: inside its root, with its root, or still without one. -/
def Grown (body rest : List Char) (growth : Growth) : Prop :=
  growth.Open body rest ∨ growth.Whole body ∨ growth = ⟨[], none⟩

/-- A change that leaves the elements inside the innermost open one as they are. -/
theorem Open.inside (h : growth.Open body position) (hrest : rest <:+ position)
    {change : List Node → List Node} (hchange : ∀ nodes,
      Node.elementsBelow (change nodes).reverse = Node.elementsBelow nodes.reverse) :
    (growth.inside change).frames.length = growth.frames.length ∧
      (growth.inside change).Grown body rest := by
  obtain ⟨frames, root⟩ := growth
  obtain ⟨rfl, hstack⟩ := h
  cases hstack with
  | nil => exact ⟨rfl, .inr (.inr rfl)⟩
  | @cons frame frames _ hframe houter =>
    refine ⟨rfl, .inl ⟨rfl, .cons ⟨hframe.startTag, hrest.trans hframe.since, ?_⟩ houter⟩⟩
    show Settled frame.span.behind rest (Node.elementsBelow (change frame.children).reverse)
    rw [hchange]
    exact hframe.children.until hrest

theorem inside_self (growth : Growth) : growth.inside (fun nodes => nodes) = growth := by
  obtain ⟨frames, root⟩ := growth
  cases frames <;> rfl

theorem settled_of_empty {attributes : List (String × String)} {scope : Namespaces}
    (h : (Token.start name raws .empty).Stands ⟨position, rest⟩)
    (hrest : StandsBehind rest position) :
    Settled position rest
      (Frame.toElement ⟨name, attributes, scope, ⟨position, rest⟩, []⟩ rest).descendants := by
  have hwhole : IsWhole (Frame.toElement ⟨name, attributes, scope, ⟨position, rest⟩, []⟩ rest).tag
      (Frame.toElement ⟨name, attributes, scope, ⟨position, rest⟩, []⟩ rest).span.text := by
    cases h with
    | empty h =>
      rw [Frame.toElement, Span.text_eq rfl]
      exact .empty h
  exact settled_nil.descendants hwhole hrest List.suffix_rfl

/-- The element of an open frame is settled behind its end tag. -/
theorem settled_of_stop (h : frame.OpenAt position)
    (hstop : (Token.stop frame.name).Stands ⟨position, rest⟩) :
    Settled frame.span.start rest (frame.toElement rest).descendants := by
  have hwhole : IsWhole (frame.toElement rest).tag (frame.toElement rest).span.text := by
    obtain ⟨first, hfirst, hstart⟩ := h.exists_startTag
    obtain ⟨content, hcontent⟩ := h.since
    cases hstop with
    | @stop _ last _ hlast =>
      have htext : (frame.toElement rest).span.text = first ++ content ++ last := by
        refine Span.text_eq ?_
        show frame.span.start = first ++ content ++ last ++ rest
        rw [hstart, ← hcontent]
        simp
      rw [htext]
      exact .closed hfirst hlast
  exact (h.children.until hstop.suffix).descendants hwhole (standsBehind_of_startTag h)
    (hstop.suffix.trans h.since)

/-- A token leaves the tree inside its root or with its root, or finds none. What is open behind it
is what was open before, and what it opens but does not close. -/
theorem Open.step (h : growth.Open body position)
    (hnext : Token.next? position = some (token, rest)) (hshort : rest.length < position.length)
    (hstep : growth.step? ⟨token, ⟨position, rest⟩⟩ = some growth') :
    growth'.frames.length = token.depthAfter growth.frames.length ∧
      growth'.frames.length + (if token.closes then 1 else 0) =
        growth.frames.length + (if token.opens then 1 else 0) ∧
      growth'.Grown body rest := by
  have hstands := Token.stands_of_next? hnext
  have hrest : rest <:+ position := hstands.suffix
  obtain ⟨frames, root⟩ := growth
  obtain ⟨rfl, hstack⟩ := id h
  cases token with
  | start name raws ending =>
    rcases start?_cases hstep with ⟨rfl, rfl⟩ | ⟨attributes, scope, ⟨rfl, rfl⟩ | ⟨rfl, rfl⟩⟩
    · have hgrown := (h.inside hrest fun _ => rfl).2
      rw [inside_self] at hgrown
      exact ⟨rfl, rfl, hgrown⟩
    · have hframe : Frame.OpenAt rest ⟨name, attributes, scope, ⟨position, rest⟩, []⟩ :=
        ⟨⟨raws, hnext⟩, List.suffix_rfl, settled_nil⟩
      exact ⟨rfl, rfl, .inl ⟨rfl, .cons hframe hstack⟩⟩
    -- An empty element is attached at once, as one is that ends here.
    · obtain ⟨hlength, hgrown⟩ := attach_cases
        (Frame.toElement ⟨name, attributes, scope, ⟨position, rest⟩, []⟩ rest) hstack
        (settled_of_empty hstands ⟨hrest, hshort⟩) hrest
      exact ⟨hlength, hlength, or_assoc.mp (.inl hgrown)⟩
  | stop name =>
    obtain ⟨frame, outer, hframes, rfl, rfl⟩ := stop?_cases hstep
    obtain rfl : frames = frame :: outer := hframes
    cases hstack with
    | cons hframe houter =>
      have hwithin := (hrest.trans hframe.since).trans (standsBehind_of_startTag hframe).1
      obtain ⟨hlength, hgrown⟩ := attach_cases (frame.toElement rest) houter
        (settled_of_stop hframe hstands) hwithin
      refine ⟨hlength, ?_, or_assoc.mp (.inl hgrown)⟩
      exact congrArg (· + 1) hlength
  | text raw =>
    obtain ⟨content, -, rfl⟩ := Option.map_eq_some_iff.mp hstep
    obtain ⟨hlength, hgrown⟩ := h.inside hrest (Node.elementsBelow_addText content)
    exact ⟨hlength, hlength, hgrown⟩
  | cdata content =>
    obtain rfl := Option.some.inj hstep
    obtain ⟨hlength, hgrown⟩ := h.inside hrest (Node.elementsBelow_addText _)
    exact ⟨hlength, hlength, hgrown⟩
  | remark =>
    obtain rfl := Option.some.inj hstep
    have hremark : ∀ nodes, Node.elementsBelow (Node.remark :: nodes).reverse =
        Node.elementsBelow nodes.reverse := fun nodes => by
      simp [Node.elementsBelow_append, Node.elementsBelow]
    obtain ⟨hlength, hgrown⟩ := h.inside hrest hremark
    exact ⟨hlength, hlength, hgrown⟩

variable {tokens : List Placed} {behind cs : List Char} {depth : Nat} {root : Element}

theorem tokens?_cases (h : tokens? depth cs = some (tokens, behind)) :
    (cs = [] ∧ tokens = []) ∨ ∃ token rest, Token.next? cs = some (token, rest) ∧
      rest.length < cs.length ∧ ((token.depthAfter depth = 0 ∧ tokens = [⟨token, ⟨cs, rest⟩⟩]) ∨
      token.depthAfter depth ≠ 0 ∧ ∃ later, tokens = ⟨token, ⟨cs, rest⟩⟩ :: later ∧
        tokens? (token.depthAfter depth) rest = some (later, behind)) := by
  unfold tokens? at h
  split at h
  · exact .inl ⟨rfl, (Prod.mk.inj (Option.some.inj h)).1.symm⟩
  · split at h
    · rename_i token rest hnext
      refine .inr ⟨token, rest, hnext, Token.length_of_next? hnext, ?_⟩
      dsimp only at h
      split_ifs at h with hdepth
      · exact .inl ⟨hdepth, (Prod.mk.inj (Option.some.inj h)).1.symm⟩
      · obtain ⟨⟨later, behind'⟩, hlater, heq⟩ := Option.map_eq_some_iff.mp h
        obtain ⟨rfl, rfl⟩ := Prod.mk.inj heq
        exact .inr ⟨hdepth, later, rfl, hlater⟩
    · cases h

theorem Grown.of_length_eq_zero (h : growth.Grown body position)
    (hlength : growth.frames.length = 0) : growth.Grown body [] := by
  obtain ⟨frames, root⟩ := growth
  obtain rfl := List.eq_nil_of_length_eq_zero hlength
  rcases h with hopen | h
  · obtain rfl : root = none := hopen.root
    exact .inr (.inr rfl)
  · exact .inr h

/-- The tokens leave the tree inside its root at the end of the document, or with its root, or find
none. What is open in the end is what was open, and what they open but do not close. -/
theorem Open.run (h : growth.Open body position)
    (htokens : tokens? growth.frames.length position = some (tokens, behind))
    (hrun : tokens.foldlM Growth.step? growth = some growth') :
    growth'.frames.length + tokens.countP (·.token.closes) =
      growth.frames.length + tokens.countP (·.token.opens) ∧ growth'.Grown body [] := by
  induction hlength : position.length using Nat.strongRecOn generalizing growth position tokens with
  | ind n ih =>
    rcases tokens?_cases htokens with ⟨rfl, rfl⟩ | ⟨token, rest, hnext, hshort, hcases⟩
    · obtain rfl := Option.some.inj hrun
      exact ⟨rfl, .inl h⟩
    · rcases hcases with ⟨hdepth, rfl⟩ | ⟨hdepth, later, rfl, hlater⟩ <;>
        obtain ⟨next, hstep, hrun⟩ := Option.bind_eq_some_iff.mp hrun <;>
        obtain ⟨hframes, hcount, hgrown⟩ := h.step hnext hshort hstep <;>
        simp only [List.countP_cons]
      · obtain rfl := Option.some.inj hrun
        simp only [List.countP_nil]
        exact ⟨by omega, hgrown.of_length_eq_zero (hframes.trans hdepth)⟩
      · rcases hgrown with hopen | hwhole | rfl
        · obtain ⟨hlast, hgrown⟩ := ih _ (hlength ▸ hshort) hopen (hframes ▸ hlater) hrun rfl
          exact ⟨by omega, hgrown⟩
        · exact absurd (hframes.symm.trans (congrArg List.length hwhole.frames)) hdepth
        · exact absurd hframes.symm hdepth

/-- Each element from one on is open, or written as a whole. -/
def OpenOrWhole (root : Element) : Prop :=
  ∀ element ∈ root.descendants, element.IsOpen ∨ IsWhole element.tag element.span.text

/-- An open frame with the element that is open in it, if there is one. -/
theorem openOrWhole_of_openAt (h : frame.OpenAt position) {inner : Option Element}
    (hinner : ∀ found ∈ inner, OpenOrWhole found) :
    OpenOrWhole (Frame.toElement { frame with
      children := (inner.map Node.element).toList ++ frame.children } frame.span.behind) := by
  intro element helement
  rw [Element.descendants_eq] at helement
  rcases List.mem_cons.mp helement with rfl | helement
  · exact .inl h.isOpen
  · have helement : element ∈ Node.elementsBelow
        ((inner.map Node.element).toList ++ frame.children).reverse := helement
    rw [List.reverse_append, Node.elementsBelow_append, List.mem_append] at helement
    rcases helement with hsettled | hinside
    · exact .inr (h.children.whole element hsettled)
    · cases inner with
      | none => cases hinside
      | some found =>
        have hinside : element ∈ found.descendants ++ [] := hinside
        rw [List.append_nil] at hinside
        exact hinner found rfl element hinside

/-- In a tree that is left open the root is the outermost element that is open. -/
theorem Open.finish (h : growth.Open body position) (hfinish : growth.finish = some root) :
    growth.frames.length ≠ 0 ∧ root.span.start = body ∧ root.IsOpen ∧ OpenOrWhole root := by
  obtain ⟨frames, inner⟩ := growth
  obtain ⟨rfl, hstack⟩ := h
  have houtermost : ∀ {frames position} {inner : Option Element}, Stack body frames position →
      frames ≠ [] → (∀ found ∈ inner, OpenOrWhole found) →
      Growth.finish ⟨frames, inner⟩ = some root →
        root.span.start = body ∧ root.IsOpen ∧ OpenOrWhole root := by
    intro frames position inner hstack hne hinner hfinish
    induction hstack generalizing inner with
    | nil => exact absurd rfl hne
    | @cons frame frames position hframe houter ih =>
      have hgrown := openOrWhole_of_openAt hframe hinner
      cases houter with
      | nil =>
        obtain rfl := Option.some.inj hfinish
        exact ⟨rfl, hframe.isOpen, hgrown⟩
      | cons _ _ =>
        refine ih (List.cons_ne_nil _ _) (fun found hfound => ?_) hfinish
        obtain rfl := Option.mem_some_iff.mp hfound
        exact hgrown
  cases frames with
  | nil => exact nomatch hfinish
  | cons frame frames =>
    exact ⟨Nat.succ_ne_zero _, houtermost hstack (List.cons_ne_nil _ _) (by simp) hfinish⟩

theorem Whole.finish (h : growth.Whole body) (hfinish : growth.finish = some root) :
    growth.frames.length = 0 ∧ root.span.start = body ∧ ∃ rest,
    Settled body rest root.descendants := by
  obtain ⟨found, rest, hfound, hstart, hsettled⟩ := h.root
  rw [Growth.finish, h.frames, hfound] at hfinish
  obtain rfl := Option.some.inj hfinish
  exact ⟨congrArg List.length h.frames, hstart, rest, hsettled⟩

end Growth

/-- How a document was read: its body starts with its root, which the tokens of the body leave open,
or whole with all that is in it. -/
theorem Document.of_read {text : String} {document : Document}
    (h : Document.read? text = some document) : document.text = text.toList ∧
      ∃ body tokens behind, skipProlog? text.toList = some body ∧
      tokens? 0 body = some (tokens, behind) ∧ document.root.span.start = body ∧
      ((tokens.countP (·.token.closes) < tokens.countP (·.token.opens) ∧ document.root.IsOpen ∧
        Growth.OpenOrWhole document.root) ∨
      (tokens.countP (·.token.closes) = tokens.countP (·.token.opens) ∧
        ∃ rest, Settled body rest document.root.descendants)) := by
  obtain ⟨body, hbody, h⟩ := Option.bind_eq_some_iff.mp h
  dsimp only at h
  split_ifs at h
  swap
  · exact nomatch h
  obtain ⟨⟨tokens, behind⟩, htokens, h⟩ := Option.bind_eq_some_iff.mp h
  obtain ⟨root, hroot, h⟩ := Option.bind_eq_some_iff.mp h
  obtain ⟨remaining, -, h⟩ := Option.bind_eq_some_iff.mp h
  obtain ⟨growth, hrun, hfinish⟩ := Option.bind_eq_some_iff.mp hroot
  have hempty : Growth.Open body body ⟨[], none⟩ := ⟨rfl, .nil⟩
  obtain ⟨hcount, hgrown⟩ := hempty.run htokens hrun
  split at h
  · obtain rfl := Option.some.inj h
    refine ⟨rfl, body, tokens, behind, hbody, htokens, ?_⟩
    have hcount : growth.frames.length + tokens.countP (·.token.closes) =
        tokens.countP (·.token.opens) := by simpa using hcount
    rcases hgrown with hopen | hwhole | rfl
    · obtain ⟨hne, hstart, hopened⟩ := hopen.finish hfinish
      exact ⟨hstart, .inl ⟨by omega, hopened⟩⟩
    · obtain ⟨hlength, hstart, hsettled⟩ := hwhole.finish hfinish
      exact ⟨hstart, .inr ⟨by omega, hsettled⟩⟩
    · exact nomatch hfinish
  · exact nomatch h

end RoundRobin.Markup
