import RoundRobin.Markup.Reference
import RoundRobin.Markup.Tag

/-! Namespaces. A qualifier has to be declared at the element that uses it or at one around it, and
no two attributes of a tag may have the same expanded name. -/

namespace RoundRobin.Markup

def xmlNamespace : String := "http://www.w3.org/XML/1998/namespace"

def xmlnsNamespace : String := "http://www.w3.org/2000/xmlns/"

/-- The namespaces of the qualifiers in scope, the innermost declarations first. -/
abbrev Namespaces := List (String × String)

/-- An attribute with its value as it is to be understood. -/
abbrev Attribute := Name × String

def resolveValues? (raws : List RawAttribute) : Option (List Attribute) :=
  raws.mapM fun raw => (attributeValue? raw.value).map fun value => (raw.name, value)

/-- Whether an attribute declares a namespace, of a qualifier or of names without one. -/
def Name.isDeclaration (name : Name) : Bool := name.qualifier = "xmlns" || name.base = "xmlns"

/-- Adds what an attribute declares. The namespaces of XML itself are bound already: the qualifier
`xml` may be given its own namespace only, and no other may be given one of the two. -/
def declare? (declared : Namespaces) : Attribute → Option Namespaces
  | (⟨"xmlns", qualifier⟩, uri) =>
    if uri = xmlnsNamespace then none
    else if qualifier = "xml" then if uri = xmlNamespace then some declared else none
    else if uri = xmlNamespace ∨ (declared.lookup qualifier).isSome then none
    else some (declared ++ [(qualifier, uri)])
  | (name, uri) =>
    if name.base = "xmlns" ∧ (uri = xmlNamespace ∨ uri = xmlnsNamespace) then none
    else some declared

/-- What the attributes of one tag declare. -/
def declarations? (attributes : List Attribute) : Option Namespaces :=
  attributes.foldlM declare? []

/-- The namespace of an attribute's name: none without a qualifier. -/
def attributeNamespace? (scope : Namespaces) (name : Name) : Option (Option String) :=
  if name.qualifier = "" then some none
  else if name.qualifier = "xml" then some (some xmlNamespace)
  else (scope.lookup name.qualifier).map some

/-- The attributes without a qualifier, once the names of all are declared and distinct. -/
def plainAttributes? (scope : Namespaces) (attributes : List Attribute) :
    Option (List (String × String)) := do
  let proper := attributes.filter fun (name, _) => !name.isDeclaration
  let expanded ← proper.mapM fun (name, _) =>
    (attributeNamespace? scope name).map fun uri => (uri, name.base)
  if expanded.Nodup then
    return (proper.filter fun (name, _) => name.qualifier = "").map fun (name, value) =>
      (name.base, value)
  else none

end RoundRobin.Markup
