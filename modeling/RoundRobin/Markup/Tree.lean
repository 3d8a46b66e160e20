import RoundRobin.Markup.Scan

/-! Documents as trees. An element keeps its tag without a qualifier and those attributes that have
none. It spans the document from its start tag to its end tag; an element in which the input ends
spans its start tag only. -/

namespace RoundRobin.Markup

mutual

structure Element where
  tag : String
  attributes : List (String × String)
  children : List Node
  span : Span

inductive Node where
  | element (element : Element)
  | text (content : String)
  /-- A comment or a processing instruction. -/
  | remark

end

instance : Inhabited Element := ⟨⟨"", [], [], default⟩⟩
instance : Inhabited Node := ⟨.remark⟩

mutual

/-- The element and all elements below it, in the order of their start tags. -/
def Element.descendants : Element → List Element
  | ⟨tag, attributes, children, span⟩ =>
    ⟨tag, attributes, children, span⟩ :: Node.elementsBelow children

/-- The elements among some nodes and below them. -/
def Node.elementsBelow : List Node → List Element
  | [] => []
  | .element element :: nodes => element.descendants ++ Node.elementsBelow nodes
  | .text _ :: nodes => Node.elementsBelow nodes
  | .remark :: nodes => Node.elementsBelow nodes

end

namespace Element

def childElements (element : Element) : List Element :=
  element.children.filterMap fun
    | .element child => some child
    | _ => none

/-- The first element with a tag, at any depth from this element on. -/
def find? (element : Element) (tag : String) : Option Element :=
  element.descendants.find? (·.tag == tag)

/-- All elements with a tag, at any depth from this element on. -/
def findAll (element : Element) (tag : String) : List Element :=
  element.descendants.filter (·.tag == tag)

/-- The text at the start of an element. -/
def leadingText? (element : Element) : Option String :=
  match element.children with
  | .text content :: _ => some content
  | _ => none

def attribute? (element : Element) (name : String) : Option String := element.attributes.lookup name

end Element

/-- Puts text behind some nodes; text behind text continues it. The nodes are in reverse order. -/
def Node.addText (content : String) : List Node → List Node
  | .text before :: nodes => .text (before ++ content) :: nodes
  | nodes => .text content :: nodes

end RoundRobin.Markup
