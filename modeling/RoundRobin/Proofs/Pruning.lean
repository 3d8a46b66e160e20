import RoundRobin.Proofs.Markup.Pruning
import RoundRobin.Proofs.Reading

/-! Rules in a document. They are read in the order in which their elements start, and elements
among them that name no rule can be removed with all that is in them. -/

namespace RoundRobin

open Markup

section Rules

variable {u : Universe} {element a b : Element} {elements others : List Element}

theorem Markup.Element.namesRule_iff :
    element.namesRule = true ↔ ∃ kind, Kind.ofTag? element.tag = some kind := by
  simp [Element.namesRule, Kind.ofTag?_eq_some_iff, Kind.mem_all]

/-- An element whose tag names no rule is passed over. -/
theorem Universe.readRule?_of_not (h : element.namesRule = false) :
    u.readRule? element = .ok none := by
  have hnone : Kind.ofTag? element.tag = none := by
    refine Option.eq_none_iff_forall_ne_some.mpr fun kind hkind => ?_
    exact Bool.false_ne_true (h.symm.trans (Element.namesRule_iff.mpr ⟨kind, hkind⟩))
  rw [Universe.readRule?, Rule.read?, hnone]
  rfl

theorem Universe.readRule?_eq_ok (h : element.namesRule = true) {found : Option Rule}
    (hread : u.readRule? element = .ok found) :
    ∃ rule, found = some rule ∧ Rule.read? element.tag element.attributes = .ok (some rule) := by
  obtain ⟨kind, hkind⟩ := Element.namesRule_iff.mp h
  obtain ⟨read, hrule, hread⟩ := bind_eq_ok hread
  cases read with
  | none =>
    rw [Rule.read?, hkind] at hrule
    obtain ⟨rule, -, hrule⟩ := map_eq_ok_iff.mp hrule
    cases hrule
  | some rule =>
    obtain ⟨_, -, hread⟩ := bind_eq_ok hread
    exact ⟨rule, (Except.ok.inj hread).symm, hrule⟩

theorem Universe.readRule?_eq_of_sameTag (h : a.SameTag b) : u.readRule? a = u.readRule? b := by
  rw [Universe.readRule?, Universe.readRule?, h.tag, h.attributes]

/-- The rules of some elements are read from those whose tags name rules, one from each. -/
theorem forall₂_of_mapM {found : List (Option Rule)} (h : elements.mapM u.readRule? = .ok found) :
    List.Forall₂ (fun element rule => Rule.read? element.tag element.attributes = .ok (some rule))
      (elements.filter Element.namesRule) (found.filterMap id) := by
  have hfound := mapM_eq_ok_iff.mp h
  clear h
  induction hfound with
  | nil => exact .nil
  | @cons read element found elements hread _ ih =>
    cases hnames : element.namesRule with
    | false =>
      obtain rfl : none = read :=
        Except.ok.inj ((Universe.readRule?_of_not hnames).symm.trans hread)
      simpa [hnames] using ih
    | true =>
      obtain ⟨rule, rfl, hrule⟩ := Universe.readRule?_eq_ok hnames hread
      rw [List.filter_cons_of_pos hnames]
      exact .cons hrule ih

/-- The rules that are read from some elements. -/
def Universe.readRules (u : Universe) (elements : List Element) : Except Failure (List Rule) :=
  (·.filterMap id) <$> elements.mapM u.readRule?

theorem Universe.readRules_cons (u : Universe) (element : Element) (elements : List Element) :
    u.readRules (element :: elements) =
      u.readRule? element >>= fun found => (found.toList ++ ·) <$> u.readRules elements := by
  rw [readRules, readRules, List.mapM_cons]
  cases u.readRule? element with
  | error failure => rfl
  | ok found =>
    cases elements.mapM u.readRule? with
    | error failure => rfl
    | ok rest => cases found <;> rfl

/-- Elements that name no rules have no effect. -/
theorem Universe.readRules_filter (u : Universe) (elements : List Element) :
    u.readRules (elements.filter Element.namesRule) = u.readRules elements := by
  induction elements with
  | nil => rfl
  | cons element elements ih =>
    rw [List.filter_cons, Universe.readRules_cons]
    split
    · rw [Universe.readRules_cons, ih]
    · rename_i hnot
      rw [Universe.readRule?_of_not (Bool.eq_false_iff.mpr hnot), ih]
      show u.readRules elements = (fun rest => rest) <$> u.readRules elements
      exact (id_map _).symm

/-- The rules of elements that differ in their places are the same, and so is the first failure. -/
theorem Universe.readRules_eq (h : List.Forall₂ Element.SameTag elements others) :
    u.readRules elements = u.readRules others := by
  have hread : ∀ a b : Element, a.SameTag b → u.readRule? a = u.readRule? b := fun _ _ =>
    Universe.readRule?_eq_of_sameTag
  rw [readRules, readRules, mapM_eq_of_forall₂ hread h]

theorem ruleElements_eq {root group : Element} (h : root.group? = some group) :
    ruleElements root = group.descendants := by
  unfold Element.group? at h
  rw [ruleElements, h]

theorem Tournament.ofElement_eq (root : Element) : Tournament.ofElement root = do
    let u ← Universe.read root
    let rules ← u.readRules (ruleElements root)
    return {
      name := elementText? root "InstanceName"
      teams := u.teams
      slots := u.slots
      phased := isPhased root
      rules } := by
  rw [Tournament.ofElement]
  cases Universe.read root with
  | error failure => rfl
  | ok u =>
    dsimp only [bind, Except.bind, Universe.readRules]
    cases (ruleElements root).mapM u.readRule? <;> rfl

end Rules

section Pruned

variable {document pruned : Document} {tag : String}

theorem Markup.Document.Prunes.findAll (h : document.Prunes pruned) (htag : tag ∈ documentTags) :
    List.Forall₂ Element.SameFace (document.root.findAll tag) (pruned.root.findAll tag) := by
  unfold Element.findAll
  rw [Element.descendants_eq, Element.descendants_eq, List.filter_cons,
    List.filter_cons, h.root.tag]
  split
  · exact .cons ⟨h.root, h.children.leadingText?_eq⟩ (h.children.forall₂ htag)
  · exact h.children.forall₂ htag

theorem Markup.Document.Prunes.elementText?_eq (h : document.Prunes pruned)
    (htag : tag ∈ documentTags) :
    elementText? document.root tag = elementText? pruned.root tag := by
  have hfind : ∀ root : Element, root.find? tag = (root.findAll tag).head? := fun root =>
    List.head?_filter.symm
  have hfaces := h.findAll htag
  rw [elementText?, elementText?, hfind, hfind]
  generalize document.root.findAll tag = elements, pruned.root.findAll tag = others at hfaces
  cases hfaces with
  | nil => rfl
  | cons hface _ => simp only [List.head?_cons, Option.bind_some, hface.text]

theorem Markup.Document.Prunes.readIds_eq (h : document.Prunes pruned) (resource : Resource) :
    resource.readIds document.root = resource.readIds pruned.root := by
  have hid : ∀ a b : Element, a.SameFace b → resource.readId a = resource.readId b := by
    intro a b hface
    rw [Resource.readId, Resource.readId, Element.attribute?, Element.attribute?, hface.attributes]
  have htag : resource.tag ∈ documentTags := by cases resource <;> decide
  rw [Resource.readIds, Resource.readIds, mapM_eq_of_forall₂ hid (h.findAll htag)]

/-- What is read from the root of a document is read from what pruning leaves. -/
theorem Markup.Document.Prunes.ofElement_eq (h : document.Prunes pruned) :
    Tournament.ofElement pruned.root = Tournament.ofElement document.root := by
  have huniverse : Universe.read document.root = Universe.read pruned.root := by
    rw [Universe.read, Universe.read, h.readIds_eq, h.readIds_eq]
  have hphased : isPhased document.root = isPhased pruned.root := by
    rw [isPhased, isPhased, h.elementText?_eq (by decide)]
  have hrules : ∀ u : Universe,
      u.readRules (ruleElements document.root) = u.readRules (ruleElements pruned.root) := by
    intro u
    obtain ⟨group, rest, hgroup, hrest, hsame, hinside⟩ := h.children.group?
    rw [ruleElements_eq hgroup, ruleElements_eq hrest, ← u.readRules_filter group.descendants,
      ← u.readRules_filter rest.descendants]
    refine Universe.readRules_eq ?_
    rw [Element.descendants_eq, Element.descendants_eq, List.filter_cons, List.filter_cons,
      hsame.namesRule_eq]
    split
    · exact .cons hsame hinside.forall₂
    · exact hinside.forall₂
  rw [Tournament.ofElement_eq, Tournament.ofElement_eq, huniverse, hphased,
    h.elementText?_eq (by decide)]
  simp only [hrules]

end Pruned

section Read

variable {read? : Reader} {isOpen : Document → Element → Prop} {text : String}
  {document pruned : Document}

/-- A document that was read is closed after pruning as it was before. -/
theorem Markup.Document.Prunes.checkClosed_eq (hspans : SpansElements read? isOpen)
    (h : document.Prunes pruned) (hread : read? text = some document) :
    pruned.checkClosed = document.checkClosed := by
  have hone : Element.OneOf document.root.descendants pruned.root.descendants := by
    rw [Element.descendants_eq, Element.descendants_eq]
    exact h.children.oneOf.cons h.root
  by_cases hopen : ∃ element ∈ document.root.descendants, isOpen document element
  · obtain ⟨element, hmem, hopen⟩ := hopen
    have hroot := Document.looksClosed_root_of_open hspans hread hmem hopen
    rw [Document.checkClosed_of_open hroot, Document.checkClosed_of_open (h.root.closed ▸ hroot),
      h.place, h.root.tag]
  · have hclosed := Document.looksClosed_of_not_open hspans hread fun element hmem hopen' =>
      hopen ⟨element, hmem, hopen'⟩
    rw [Document.checkClosed_of_closed hclosed, Document.checkClosed_of_closed]
    intro b hb
    obtain ⟨a, ha, hsame⟩ := hone b hb
    exact hsame.closed ▸ hclosed a ha

/-- The rules of a tournament that was read, in order. -/
theorem Tournament.listsRules {t : Tournament} (horders : OrdersElements read? isOpen)
    (hread : read? text = some document) (h : Tournament.readBy read? text = .ok t) :
    document.root.ListsRules t.rules := by
  obtain ⟨found, hfound, hclosed, h⟩ := Tournament.ofElement_of_readBy h
  obtain rfl := Option.some.inj (hread.symm.trans hfound)
  obtain ⟨u, -, h⟩ := bind_eq_ok h
  obtain ⟨read, hrules, h⟩ := bind_eq_ok h
  obtain rfl := Except.ok.inj h
  have hlists := forall₂_of_mapM hrules
  cases hgroup : document.root.group? with
  | none =>
    have hnone : ruleElements document.root = [] := by
      unfold Element.group? at hgroup
      rw [ruleElements, hgroup]
    rw [hnone] at hlists
    exact ⟨[], .nil, by simp [hgroup], hlists⟩
  | some group =>
    have htag : group.tag = "Constraints" := by simpa using List.find?_some hgroup
    -- The group itself is read as well, but its tag names no rule.
    have hnames : group.namesRule = false := by
      rw [Element.namesRule, htag]
      decide
    rw [ruleElements_eq hgroup, Element.descendants_eq, List.filter_cons_of_neg (by simp [hnames])]
      at hlists
    refine ⟨_, ?_, fun element => ?_, hlists⟩
    -- Only in a document that is closed as a whole are the places of all elements known.
    · have hnone : ∀ element ∈ document.root.descendants, ¬ isOpen document element := by
        intro element hmem hopen
        rw [Document.checkClosed_of_open
          (Document.looksClosed_root_of_open horders.toSpansElements hread hmem hopen)] at hclosed
        cases hclosed
      refine (horders.inOrder hread hnone).sublist (List.filter_sublist.trans ?_)
      have hgrouped := sublist_elementsBelow (Element.mem_children_of_group? hgroup)
      rw [Element.descendants_eq] at hgrouped ⊢
      exact ((List.sublist_cons_self _ _).trans hgrouped).trans (List.sublist_cons_self _ _)
    · rw [List.mem_filter, ← Element.inside_iff, and_comm, hgroup]
      simp only [Option.some.injEq, exists_eq_left']

/-- The rules of a document are read in the order of its elements, each from one. To prune its first
group of constraints changes neither the tournament that is read nor the failure. -/
theorem Tournament.readsInOrder (horders : OrdersElements read? isOpen)
    (h : read? text = some document) :
    (∀ t, Tournament.readBy read? text = .ok t → document.root.ListsRules t.rules) ∧
    ∀ pruned, document.Prunes pruned →
      Tournament.ofDocument pruned = Tournament.readBy read? text ∧
      ∀ other, read? other = some pruned →
        Tournament.readBy read? other = Tournament.readBy read? text := by
  refine ⟨fun t ht => Tournament.listsRules horders h ht, fun pruned hpruned => ?_⟩
  have hwhole : Tournament.readBy read? text = Tournament.ofDocument document := by
    rw [Tournament.readBy, h]
  have hsame : Tournament.ofDocument pruned = Tournament.readBy read? text := by
    rw [hwhole, Tournament.ofDocument, Tournament.ofDocument,
      hpruned.checkClosed_eq horders.toSpansElements h, hpruned.ofElement_eq]
  refine ⟨hsame, fun other hother => ?_⟩
  rw [← hsame, Tournament.readBy, hother]

end Read

/-- Two teams and one rule, in a group in which other elements name no rules. -/
def idleText : String :=
  "<I><team id=\"0\"/><team id=\"1\"/><slot id=\"0\"/><Constraints><Idle> <A/></Idle><B>"
    ++ "<A/><SE1 min=\"1\" mode1=\"SLOTS\" penalty=\"1\" teams=\"0\" type=\"HARD\"/></B>"
    ++ "</Constraints></I>"

/-- The document without its idle elements. -/
def briefText : String :=
  "<I><team id=\"0\"/><team id=\"1\"/><slot id=\"0\"/><Constraints><B>"
    ++ "<SE1 min=\"1\" mode1=\"SLOTS\" penalty=\"1\" teams=\"0\" type=\"HARD\"/></B>"
    ++ "</Constraints></I>"

/-- The rule is found in both documents. -/
theorem readsInOrder_idleText :
    ∃ document pruned t, Document.read? idleText = some document ∧
      Document.read? briefText = some pruned ∧ document.Prunes pruned ∧
      Tournament.read idleText = .ok t ∧ t.rules.length = 1 ∧ document.root.ListsRules t.rules ∧
      Tournament.read briefText = .ok t := by
  have hfacts : ((Document.read? idleText).bind fun document => (Document.read? briefText).map
      fun pruned => (document.withoutIdle.root.looksLike pruned.root &&
        decide (pruned.before pruned.root.span = document.before document.root.span) &&
        document.root.group?.map (·.descendants.map (·.tag)) ==
          some ["Constraints", "Idle", "A", "B", "A", "SE1"])) = some true := by decide +kernel
  have hrules : (Tournament.read idleText).toOption.map (·.rules.length) = some 1 := by
    decide +kernel
  obtain ⟨document, hdocument, hfacts⟩ := Option.bind_eq_some_iff.mp hfacts
  obtain ⟨pruned, hpruned, hfacts⟩ := Option.map_eq_some_iff.mp hfacts
  obtain ⟨t, ht, hlength⟩ := Option.map_eq_some_iff.mp hrules
  simp only [Bool.and_eq_true, decide_eq_true_eq, beq_iff_eq] at hfacts
  obtain ⟨⟨hlooks, hplace⟩, htags⟩ := hfacts
  obtain ⟨group, hgroup, htags⟩ := Option.map_eq_some_iff.mp htags
  have hapart : ∀ element ∈ group.descendants, element.tag ∉ documentTags := by
    refine fun element helement => ?_
    have hnone : ∀ tag ∈ group.descendants.map (·.tag), tag ∉ documentTags := by
      rw [htags]
      decide
    exact hnone _ (List.mem_map_of_mem helement)
  have hprunes : document.Prunes pruned :=
    (Document.prunes_withoutIdle hgroup hapart).of_looksLike hlooks hplace
  have hok : Tournament.read idleText = .ok t := eq_ok_of_toOption ht
  obtain ⟨hlists, hsame⟩ := Tournament.readsInOrder ordersElements_read hdocument
  exact ⟨document, pruned, t, hdocument, hpruned, hprunes, hok, hlength, hlists t hok,
    ((hsame pruned hprunes).2 _ hpruned).trans hok⟩

end RoundRobin
