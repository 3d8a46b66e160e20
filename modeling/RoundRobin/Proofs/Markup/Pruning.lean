import RoundRobin.Proofs.Markup.Closing
import RoundRobin.Proofs.Steps

/-! Documents from which parts are removed. An element is idle if no element in it names a rule, and
pruning removes idle elements from the first group of constraints. The elements that name rules keep
their order, and so do those that are looked for in the whole document. -/

namespace RoundRobin.Markup

/-- Whether the tag of an element names a rule. -/
def Element.namesRule (element : Element) : Bool := (Kind.all.map Kind.tag).contains element.tag

/-- An element is inside another, at any depth. -/
inductive Element.Inside : Element → Element → Prop
  | child {outer inner : Element} (h : .element inner ∈ outer.children) : Inside inner outer
  | deeper {outer child inner : Element} (h : .element child ∈ outer.children)
    (inside : Inside inner child) : Inside inner outer

/-- The first group of constraints among the children of a root. -/
def Element.group? (root : Element) : Option Element :=
  root.childElements.find? (·.tag == "Constraints")

/-- The rules are those that the elements inside the first group of constraints are read as whose
tags name rules, in the order in which they start. -/
def Element.ListsRules (root : Element) (rules : List Rule) : Prop :=
  ∃ elements : List Element, elements.Pairwise Element.StartsBefore ∧
    (∀ element, element ∈ elements ↔
      element.namesRule = true ∧ ∃ group, root.group? = some group ∧ element.Inside group) ∧
    List.Forall₂ (fun element rule => Rule.read? element.tag element.attributes = .ok (some rule))
      elements rules

section Order

variable {element inner : Element} {nodes : List Node}

mutual

theorem mem_descendants_cases : (element : Element) → ∀ inner ∈ element.descendants,
    inner = element ∨ inner.Inside element
  | ⟨tag, attributes, children, span⟩, inner, h => by
    rcases List.mem_cons.mp h with rfl | h
    · exact .inl rfl
    · obtain ⟨child, hchild, rfl | hinside⟩ := mem_elementsBelow_cases children inner h
      · exact .inr (.child hchild)
      · exact .inr (.deeper hchild hinside)

theorem mem_elementsBelow_cases : (nodes : List Node) → ∀ inner ∈ Node.elementsBelow nodes,
    ∃ child : Element, .element child ∈ nodes ∧ (inner = child ∨ inner.Inside child)
  | .element element :: nodes, inner, h => by
    rcases List.mem_append.mp h with h | h
    · exact ⟨element, .head _, mem_descendants_cases element inner h⟩
    · obtain ⟨child, hchild, hinner⟩ := mem_elementsBelow_cases nodes inner h
      exact ⟨child, .tail _ hchild, hinner⟩
  | .text _ :: nodes, inner, h => by
    obtain ⟨child, hchild, hinner⟩ := mem_elementsBelow_cases nodes inner h
    exact ⟨child, .tail _ hchild, hinner⟩
  | .remark :: nodes, inner, h => by
    obtain ⟨child, hchild, hinner⟩ := mem_elementsBelow_cases nodes inner h
    exact ⟨child, .tail _ hchild, hinner⟩

end

theorem sublist_elementsBelow {child : Element} (h : .element child ∈ nodes) :
    child.descendants.Sublist (Node.elementsBelow nodes) := by
  induction nodes with
  | nil => exact nomatch h
  | cons node nodes ih =>
    rcases List.mem_cons.mp h with rfl | hrest
    · exact List.sublist_append_left _ _
    · cases node with
      | element other => exact (ih hrest).trans (List.sublist_append_right _ _)
      | text content => exact ih hrest
      | remark => exact ih hrest

theorem Element.Inside.mem (h : inner.Inside element) :
    inner ∈ Node.elementsBelow element.children := by
  induction h with
  | child h =>
    exact (sublist_elementsBelow h).subset (by rw [Element.descendants_eq]; exact .head _)
  | deeper h _ ih =>
    refine (sublist_elementsBelow h).subset ?_
    rw [Element.descendants_eq]
    exact .tail _ ih

theorem Element.inside_iff : inner.Inside element ↔
    inner ∈ Node.elementsBelow element.children := by
  refine ⟨Inside.mem, fun h => ?_⟩
  obtain ⟨child, hchild, rfl | hinside⟩ := mem_elementsBelow_cases _ _ h
  · exact .child hchild
  · exact .deeper hchild hinside

theorem Element.mem_children_of_group? {root group : Element} (h : root.group? = some group) :
    .element group ∈ root.children := by
  obtain ⟨node, hnode, hgroup⟩ := List.mem_filterMap.mp (List.mem_of_find?_eq_some h)
  cases node with
  | element child => exact Option.some.inj hgroup ▸ hnode
  | text content => exact nomatch hgroup
  | remark => exact nomatch hgroup

end Order

/-- Elements with the same tag and the same attributes, of which both are closed or neither is. -/
structure Element.SameTag (a b : Element) : Prop where
  tag : a.tag = b.tag
  attributes : a.attributes = b.attributes
  closed : a.looksClosed = b.looksClosed

/-- The same nodes at other places of a document. -/
inductive Node.Alike : List Node → List Node → Prop
  | nil : Alike [] []
  | element {a b : Element} {nodes others : List Node} (h : a.SameTag b)
    (inside : Alike a.children b.children) (behind : Alike nodes others) :
    Alike (.element a :: nodes) (.element b :: others)
  | text {nodes others : List Node} (content : String) (behind : Alike nodes others) :
    Alike (.text content :: nodes) (.text content :: others)
  | remark {nodes others : List Node} (behind : Alike nodes others) :
    Alike (.remark :: nodes) (.remark :: others)

/-- What is left of some nodes when subtrees are removed in which no element names a rule. Text and
remarks can be removed and added as well. -/
inductive Node.Prunes : List Node → List Node → Prop
  | nil : Prunes [] []
  | keep {a b : Element} {nodes others : List Node} (h : a.SameTag b)
    (inside : Prunes a.children b.children) (behind : Prunes nodes others) :
    Prunes (.element a :: nodes) (.element b :: others)
  | remove {node : Node} {nodes others : List Node}
    (h : ∀ element ∈ Node.elementsBelow [node], element.namesRule = false)
    (behind : Prunes nodes others) : Prunes (node :: nodes) others
  | add {node : Node} {nodes others : List Node} (h : Node.elementsBelow [node] = [])
    (behind : Prunes nodes others) : Prunes nodes (node :: others)

/-- The tags of the elements that are looked for in the whole document. -/
def documentTags : List String := ["InstanceName", "gameMode", "team", "slot"]

/-- What is left of some nodes when the first group of constraints among them is pruned, outside of
which the elements are that are looked for in the whole document. -/
inductive Node.PrunesGroup : List Node → List Node → Prop
  | here {group pruned : Element} {nodes others : List Node} (htag : group.tag = "Constraints")
    (apart : ∀ element ∈ group.descendants, element.tag ∉ documentTags) (h : group.SameTag pruned)
    (inside : Node.Prunes group.children pruned.children) (behind : Node.Alike nodes others) :
    PrunesGroup (.element group :: nodes) (.element pruned :: others)
  | later {node other : Node} {nodes others : List Node}
    (hnode : ∀ element : Element, node = .element element → element.tag ≠ "Constraints")
    (h : Node.Alike [node] [other]) (behind : PrunesGroup nodes others) :
    PrunesGroup (node :: nodes) (other :: others)

/-- What is left of a document when its first group of constraints is pruned. The root stays where
it is. -/
structure Document.Prunes (document pruned : Document) : Prop where
  place : pruned.before pruned.root.span = document.before document.root.span
  root : document.root.SameTag pruned.root
  children : Node.PrunesGroup document.root.children pruned.root.children

/-- Elements that are the same but for what is in them behind their leading texts. -/
structure Element.SameFace (a b : Element) : Prop extends a.SameTag b where
  text : a.leadingText? = b.leadingText?

section Pruning

variable {nodes others : List Node} {a b element : Element} {tag : String}

theorem Element.SameTag.namesRule_eq (h : a.SameTag b) : a.namesRule = b.namesRule := by
  rw [namesRule, namesRule, h.tag]

theorem Node.elementsBelow_cons (node : Node) (nodes : List Node) :
    Node.elementsBelow (node :: nodes) = Node.elementsBelow [node] ++ Node.elementsBelow nodes :=
  Node.elementsBelow_append [node] nodes

theorem Node.elementsBelow_element (element : Element) (nodes : List Node) :
    Node.elementsBelow (.element element :: nodes) =
      element :: (Node.elementsBelow element.children ++ Node.elementsBelow nodes) := by
  rw [← List.cons_append, ← Element.descendants_eq]
  rfl

theorem Node.Alike.leadingText?_eq (h : Node.Alike a.children b.children) :
    a.leadingText? = b.leadingText? := by
  unfold Element.leadingText?
  generalize a.children = nodes, b.children = others at h
  cases h <;> rfl

/-- Alike nodes have the same elements in the same order. -/
theorem Node.Alike.forall₂ (h : Node.Alike nodes others) :
    List.Forall₂ Element.SameFace (Node.elementsBelow nodes) (Node.elementsBelow others) := by
  induction h with
  | nil => exact .nil
  | @element a b nodes others hsame hinside _ ihinside ihbehind =>
    rw [Node.elementsBelow_element, Node.elementsBelow_element]
    exact .cons ⟨hsame, hinside.leadingText?_eq⟩ (List.rel_append ihinside ihbehind)
  | text _ _ ih => exact ih
  | remark _ ih => exact ih

/-- The elements that name rules are left by pruning, in the same order. -/
theorem Node.Prunes.forall₂ (h : Node.Prunes nodes others) :
    List.Forall₂ Element.SameTag ((Node.elementsBelow nodes).filter Element.namesRule)
      ((Node.elementsBelow others).filter Element.namesRule) := by
  induction h with
  | nil => exact .nil
  | @keep a b nodes others hsame _ _ ihinside ihbehind =>
    rw [Node.elementsBelow_element, Node.elementsBelow_element, List.filter_cons, List.filter_cons,
      List.filter_append, List.filter_append, hsame.namesRule_eq]
    split
    · exact .cons hsame (List.rel_append ihinside ihbehind)
    · exact List.rel_append ihinside ihbehind
  | @remove node nodes others hnone _ ih =>
    have hempty : (Node.elementsBelow [node]).filter Element.namesRule = [] :=
      List.filter_eq_nil_iff.mpr fun element helement => by simp [hnone element helement]
    rw [Node.elementsBelow_cons, List.filter_append, hempty]
    exact ih
  | @add node nodes others hnone _ ih =>
    rw [Node.elementsBelow_cons node, hnone]
    exact ih

/-- Each of some elements is one of others, at another place. -/
def Element.OneOf (elements others : List Element) : Prop :=
  ∀ b ∈ others, ∃ a ∈ elements, a.SameTag b

theorem Element.OneOf.append {as bs cs ds : List Element} (h : Element.OneOf as bs)
    (h' : Element.OneOf cs ds) : Element.OneOf (as ++ cs) (bs ++ ds) := by
  refine List.forall_mem_append.mpr ⟨fun b hb => ?_, fun d hd => ?_⟩
  · obtain ⟨a, ha, hsame⟩ := h b hb
    exact ⟨a, List.mem_append_left _ ha, hsame⟩
  · obtain ⟨c, hc, hsame⟩ := h' d hd
    exact ⟨c, List.mem_append_right _ hc, hsame⟩

theorem Element.OneOf.cons {as bs : List Element} (hsame : a.SameTag b) (h : Element.OneOf as bs) :
    Element.OneOf (a :: as) (b :: bs) := by
  have hfirst : Element.OneOf [a] [b] := List.forall_mem_singleton.mpr ⟨a, .head _, hsame⟩
  exact hfirst.append h

theorem Node.Alike.oneOf (h : Node.Alike nodes others) :
    Element.OneOf (Node.elementsBelow nodes) (Node.elementsBelow others) := fun b hb => by
  obtain ⟨a, ha, hsame⟩ := exists_mem_of_forall₂ h.forall₂.flip b hb
  exact ⟨a, ha, hsame.toSameTag⟩

/-- Pruning leaves no element that was not there. -/
theorem Node.Prunes.oneOf (h : Node.Prunes nodes others) :
    Element.OneOf (Node.elementsBelow nodes) (Node.elementsBelow others) := by
  induction h with
  | nil => exact nofun
  | @keep a b nodes others hsame _ _ ihinside ihbehind =>
    rw [Node.elementsBelow_element, Node.elementsBelow_element]
    exact .cons hsame (ihinside.append ihbehind)
  | @remove node nodes others hnone _ ih =>
    have hremoved : Element.OneOf (Node.elementsBelow [node]) [] := nofun
    rw [Node.elementsBelow_cons]
    exact hremoved.append ih
  | @add node nodes others hnone _ ih =>
    rw [Node.elementsBelow_cons node, hnone]
    exact ih

theorem Node.PrunesGroup.oneOf (h : Node.PrunesGroup nodes others) :
    Element.OneOf (Node.elementsBelow nodes) (Node.elementsBelow others) := by
  induction h with
  | @here group pruned nodes others _ _ hsame hinside hbehind =>
    rw [Node.elementsBelow_element, Node.elementsBelow_element]
    exact .cons hsame (hinside.oneOf.append hbehind.oneOf)
  | @later node other nodes others _ hsame _ ih =>
    rw [Node.elementsBelow_cons, Node.elementsBelow_cons other]
    exact hsame.oneOf.append ih

/-- Elements of a tag that is looked for in the whole document are left as they are. -/
theorem Node.PrunesGroup.forall₂ (h : Node.PrunesGroup nodes others) (htag : tag ∈ documentTags) :
    List.Forall₂ Element.SameFace ((Node.elementsBelow nodes).filter (·.tag == tag))
      ((Node.elementsBelow others).filter (·.tag == tag)) := by
  have hfilter : ∀ {nodes others}, Node.Alike nodes others →
      List.Forall₂ Element.SameFace ((Node.elementsBelow nodes).filter (·.tag == tag))
        ((Node.elementsBelow others).filter (·.tag == tag)) := fun h =>
    List.rel_filter (fun a b hab => by simp only [hab.tag]) h.forall₂
  induction h with
  | @here group pruned nodes others _ hapart hsame hinside hbehind =>
    have hgroup : group.descendants.filter (·.tag == tag) = [] :=
      List.filter_eq_nil_iff.mpr fun element helement heq =>
        hapart element helement (eq_of_beq heq ▸ htag)
    -- What is left of the group was in it before, so it has no such element either.
    have hpruned : pruned.descendants.filter (·.tag == tag) = [] := by
      refine List.filter_eq_nil_iff.mpr fun element helement heq => ?_
      rw [Element.descendants_eq] at helement hapart
      rcases List.mem_cons.mp helement with rfl | helement
      · exact hapart group (.head _) (hsame.tag ▸ eq_of_beq heq ▸ htag)
      · obtain ⟨origin, horigin, hsame⟩ := hinside.oneOf element helement
        exact hapart origin (.tail _ horigin) (hsame.tag ▸ eq_of_beq heq ▸ htag)
    rw [Node.elementsBelow, Node.elementsBelow, List.filter_append, List.filter_append, hgroup,
      hpruned]
    exact hfilter hbehind
  | @later node other nodes others _ hsame _ ih =>
    rw [Node.elementsBelow_cons, Node.elementsBelow_cons other, List.filter_append,
      List.filter_append]
    exact List.rel_append (hfilter hsame) ih

theorem Node.PrunesGroup.leadingText?_eq (h : Node.PrunesGroup a.children b.children) :
    a.leadingText? = b.leadingText? := by
  unfold Element.leadingText?
  generalize a.children = nodes, b.children = others at h
  cases h with
  | here => rfl
  | later _ h _ => cases h <;> rfl

/-- The pruned group is the first again. -/
theorem Node.PrunesGroup.group? (h : Node.PrunesGroup a.children b.children) :
    ∃ group pruned, a.group? = some group ∧ b.group? = some pruned ∧ group.SameTag pruned ∧
      Node.Prunes group.children pruned.children := by
  unfold Element.group? Element.childElements
  generalize a.children = nodes, b.children = others at h
  induction h with
  | @here group pruned nodes others htag _ hsame hinside _ =>
    have htag' : pruned.tag = "Constraints" := hsame.tag.symm.trans htag
    exact ⟨group, pruned, by simp [htag], by simp [htag'], hsame, hinside⟩
  | later hnode h _ ih =>
    obtain ⟨group, pruned, hgroup, hpruned, hrest⟩ := ih
    refine ⟨group, pruned, ?_, ?_, hrest⟩
    · cases h with
      | element => simpa [hnode _ rfl] using hgroup
      | text => exact hgroup
      | remark => exact hgroup
    · cases h with
      | element hsame => simpa [hsame.tag ▸ hnode _ rfl] using hpruned
      | text => exact hpruned
      | remark => exact hpruned

theorem Element.SameTag.trans {c : Element} (h : a.SameTag b) (h' : b.SameTag c) : a.SameTag c :=
  ⟨h.tag.trans h'.tag, h.attributes.trans h'.attributes, h.closed.trans h'.closed⟩

theorem Node.Alike.trans {last : List Node} (h : Node.Alike nodes others)
    (h' : Node.Alike others last) : Node.Alike nodes last := by
  induction h generalizing last with
  | nil => exact h'
  | element hsame _ _ ihinside ihbehind =>
    cases h' with
    | element hsame' hinside hbehind =>
      exact .element (hsame.trans hsame') (ihinside hinside) (ihbehind hbehind)
  | text content _ ih =>
    cases h' with
    | text _ hbehind => exact .text content (ih hbehind)
  | remark _ ih =>
    cases h' with
    | remark hbehind => exact .remark (ih hbehind)

theorem Node.Prunes.trans_alike {last : List Node} (h : Node.Prunes nodes others)
    (h' : Node.Alike others last) : Node.Prunes nodes last := by
  induction h generalizing last with
  | nil =>
    cases h' with
    | nil => exact .nil
  | keep hsame _ _ ihinside ihbehind =>
    cases h' with
    | element hsame' hinside hbehind =>
      exact .keep (hsame.trans hsame') (ihinside hinside) (ihbehind hbehind)
  | remove hnone _ ih => exact .remove hnone (ih h')
  | add hnone _ ih =>
    cases h' with
    | element _ _ _ => simp [Node.elementsBelow_element] at hnone
    | text _ hbehind => exact .add rfl (ih hbehind)
    | remark hbehind => exact .add rfl (ih hbehind)

theorem Node.PrunesGroup.trans_alike {last : List Node} (h : Node.PrunesGroup nodes others)
    (h' : Node.Alike others last) : Node.PrunesGroup nodes last := by
  induction h generalizing last with
  | here htag hapart hsame hinside hbehind =>
    cases h' with
    | element hsame' hinside' hbehind' =>
      exact .here htag hapart (hsame.trans hsame') (hinside.trans_alike hinside')
        (hbehind.trans hbehind')
  | later hnode hsame _ ih =>
    cases h' with
    | element hsame' hinside hbehind =>
      exact .later hnode (hsame.trans (.element hsame' hinside .nil)) (ih hbehind)
    | text content hbehind => exact .later hnode (hsame.trans (.text content .nil)) (ih hbehind)
    | remark hbehind => exact .later hnode (hsame.trans (.remark .nil)) (ih hbehind)

mutual

/-- Whether two elements differ at most in their places and in those of the nodes in them. -/
def Element.looksLike : Element → Element → Bool
  | ⟨tag, attributes, children, span⟩, other =>
    tag == other.tag && attributes == other.attributes
      && (⟨tag, attributes, children, span⟩ : Element).looksClosed == other.looksClosed
      && Node.lookLike children other.children

def Node.lookLike : List Node → List Node → Bool
  | [], [] => true
  | .element child :: nodes, .element other :: others =>
    child.looksLike other && Node.lookLike nodes others
  | .text content :: nodes, .text other :: others => content == other && Node.lookLike nodes others
  | .remark :: nodes, .remark :: others => Node.lookLike nodes others
  | _, _ => false

end

mutual

theorem Element.looksLike_sound : (element other : Element) → element.looksLike other = true →
    element.SameTag other ∧ Node.Alike element.children other.children
  | ⟨_, _, children, _⟩, other, h => by
    simp only [Element.looksLike, Bool.and_eq_true, beq_iff_eq] at h
    obtain ⟨⟨⟨htag, hattributes⟩, hclosed⟩, hchildren⟩ := h
    exact ⟨⟨htag, hattributes, hclosed⟩, Node.lookLike_sound children other.children hchildren⟩

theorem Node.lookLike_sound : (nodes others : List Node) → Node.lookLike nodes others = true →
    Node.Alike nodes others
  | [], [], _ => .nil
  | .element child :: nodes, .element other :: others, h => by
    obtain ⟨hchild, hbehind⟩ := Bool.and_eq_true_iff.mp h
    obtain ⟨hsame, hinside⟩ := Element.looksLike_sound child other hchild
    exact .element hsame hinside (Node.lookLike_sound nodes others hbehind)
  | .text content :: nodes, .text other :: others, h => by
    obtain ⟨hcontent, hbehind⟩ := Bool.and_eq_true_iff.mp h
    obtain rfl := eq_of_beq hcontent
    exact .text content (Node.lookLike_sound nodes others hbehind)
  | .remark :: nodes, .remark :: others, h => .remark (Node.lookLike_sound nodes others h)

end

mutual

/-- The element without the subtrees inside it in which no element names a rule. -/
def Element.withoutIdle : Element → Element
  | ⟨tag, attributes, children, span⟩ => ⟨tag, attributes, Node.withoutIdle children, span⟩

def Node.withoutIdle : List Node → List Node
  | [] => []
  | .element element :: nodes =>
    if element.descendants.any Element.namesRule then
      .element element.withoutIdle :: Node.withoutIdle nodes
    else Node.withoutIdle nodes
  | .text content :: nodes => .text content :: Node.withoutIdle nodes
  | .remark :: nodes => .remark :: Node.withoutIdle nodes

end

/-- The nodes with the first group of constraints without idle subtrees. -/
def Node.withoutIdleInGroup : List Node → List Node
  | [] => []
  | .element child :: nodes =>
    if child.tag = "Constraints" then .element child.withoutIdle :: nodes
    else .element child :: Node.withoutIdleInGroup nodes
  | node :: nodes => node :: Node.withoutIdleInGroup nodes

def Document.withoutIdle (document : Document) : Document :=
  let children := Node.withoutIdleInGroup document.root.children
  { document with root := { document.root with children } }

theorem Element.SameTag.refl (element : Element) : element.SameTag element := ⟨rfl, rfl, rfl⟩

theorem Element.sameTag_withoutIdle : (element : Element) → element.SameTag element.withoutIdle
  | ⟨_, _, _, _⟩ => ⟨rfl, rfl, rfl⟩

theorem Node.Prunes.node {node : Node} (h : Node.elementsBelow [node] = [])
    (behind : Node.Prunes nodes others) : Node.Prunes (node :: nodes) (node :: others) :=
  .remove (h ▸ nofun) (.add h behind)

mutual

theorem Element.prunes_withoutIdle :
    (element : Element) → Node.Prunes element.children element.withoutIdle.children
  | ⟨_, _, children, _⟩ => Node.prunes_withoutIdle children

theorem Node.prunes_withoutIdle : (nodes : List Node) → Node.Prunes nodes (Node.withoutIdle nodes)
  | [] => .nil
  | .element element :: nodes => by
    rw [Node.withoutIdle]
    split
    · exact .keep element.sameTag_withoutIdle element.prunes_withoutIdle
        (Node.prunes_withoutIdle nodes)
    · rename_i hidle
      refine .remove (fun inner hinner => ?_) (Node.prunes_withoutIdle nodes)
      rw [Node.elementsBelow, Node.elementsBelow, List.append_nil] at hinner
      exact Bool.eq_false_iff.mpr fun hnames => hidle (List.any_eq_true.mpr ⟨inner, hinner, hnames⟩)
  | .text _ :: nodes => .node rfl (Node.prunes_withoutIdle nodes)
  | .remark :: nodes => .node rfl (Node.prunes_withoutIdle nodes)

end

mutual

theorem Element.alike_refl : (element : Element) → Node.Alike element.children element.children
  | ⟨_, _, children, _⟩ => Node.alike_refl children

theorem Node.alike_refl : (nodes : List Node) → Node.Alike nodes nodes
  | [] => .nil
  | .element element :: nodes => .element (.refl element) element.alike_refl (Node.alike_refl nodes)
  | .text content :: nodes => .text content (Node.alike_refl nodes)
  | .remark :: nodes => .remark (Node.alike_refl nodes)

end

theorem Node.prunesGroup_withoutIdle {group : Element} : {nodes : List Node} →
    (nodes.filterMap fun | .element child => some child | _ => none).find?
      (·.tag == "Constraints") =
      some group → (∀ element ∈ group.descendants, element.tag ∉ documentTags) →
    Node.PrunesGroup nodes (Node.withoutIdleInGroup nodes)
  | .element child :: nodes, h, apart => by
    rw [Node.withoutIdleInGroup]
    split
    · rename_i htag
      obtain rfl : child = group := by simpa [htag] using h
      exact .here htag apart child.sameTag_withoutIdle child.prunes_withoutIdle
        (Node.alike_refl nodes)
    · rename_i htag
      refine .later (fun found hfound => ?_) (Node.alike_refl _)
        (Node.prunesGroup_withoutIdle ?_ apart)
      · exact Node.element.inj hfound ▸ htag
      · simpa [htag] using h
  | .text content :: nodes, h, apart =>
    .later nofun (Node.alike_refl _) (Node.prunesGroup_withoutIdle h apart)
  | .remark :: nodes, h, apart =>
    .later nofun (Node.alike_refl _) (Node.prunesGroup_withoutIdle h apart)

/-- All idle subtrees of the first group of constraints can be removed at once. -/
theorem Document.prunes_withoutIdle {document : Document} {group : Element}
    (h : document.root.group? = some group)
    (apart : ∀ element ∈ group.descendants, element.tag ∉ documentTags) :
    document.Prunes document.withoutIdle :=
  ⟨rfl, ⟨rfl, rfl, rfl⟩, Node.prunesGroup_withoutIdle h apart⟩

/-- What is left of a document by pruning can stand at other places of another document. -/
theorem Document.Prunes.of_looksLike {document middle pruned : Document}
    (h : document.Prunes middle) (hroot : middle.root.looksLike pruned.root = true)
    (hplace : pruned.before pruned.root.span = middle.before middle.root.span) :
    document.Prunes pruned := by
  obtain ⟨hsame, hchildren⟩ := Element.looksLike_sound _ _ hroot
  exact ⟨hplace.trans h.place, h.root.trans hsame, h.children.trans_alike hchildren⟩

end Pruning

end RoundRobin.Markup
