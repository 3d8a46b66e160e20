import Mathlib
import RoundRobin.Formulation.Fragment
import RoundRobin.Proofs.Meaning.Declarations
import RoundRobin.Proofs.Written.Program
import RoundRobin.Proofs.Zimpl.Sums

/-! The parts of formulated programs are legible: the names that rules give rise to are names of
Zimpl, and the sets, indices and terms that they share read back as they stand. -/

namespace RoundRobin

open Zimpl Written

/-- Text of word characters behind a name is part of it, unless a keyword starts as the name
does. -/
theorem isName_append {head rest : String} (hhead : isName head = true)
    (hrest : rest.toList.all isWordChar = true)
    (hkeywords : ∀ keyword ∈ keywords, ¬ head.toList <+: keyword.toList) :
    isName (head ++ rest) = true := by
  have hkeyword : head ++ rest ∉ keywords := fun hmem =>
    hkeywords _ hmem (String.toList_append ▸ List.prefix_append _ _)
  have hidentifier := isIdentifier_append (isIdentifier_of_isName hhead) hrest
  simp [isName, hidentifier, hkeyword]

theorem all_isWordChar_toString (n : Nat) : (toString n).toList.all isWordChar = true := by
  have hlist : (toString n).toList = Nat.toDigits 10 n := by simp [toString]
  rw [hlist]
  exact List.all_eq_true.mpr fun c hc =>
    isWordChar_of_isDigit (Nat.isDigit_of_mem_toDigits (by decide) (by decide) hc)

namespace Numbered

/-- The names of constraints are names: a stem, an underscore and a number. -/
theorem isName_nameWith (kind : Kind) (number : Nat) : isName (nameWith kind number) = true := by
  have hrest : ("_" ++ toString number).toList.all isWordChar = true := by
    rw [String.toList_append, List.all_append, all_isWordChar_toString]
    rfl
  rw [nameWith_eq]
  cases kind <;> exact isName_append (by decide) hrest (by decide)

theorem isName_name (rule : Numbered) : isName rule.name = true := isName_nameWith _ _

theorem isName_violationName (rule : Numbered) : isName rule.violationName = true := by
  have hrest : ("_" ++ toString rule.number ++ "_viol").toList.all isWordChar = true := by
    rw [String.toList_append, String.toList_append, List.all_append, List.all_append,
      all_isWordChar_toString]
    rfl
  have hname :
      rule.violationName = rule.rule.kind.stem ++ ("_" ++ toString rule.number ++ "_viol") := by
    rw [violationName, name, nameWith_eq, String.append_assoc, String.append_assoc]
  rw [hname]
  cases rule.rule.kind <;> exact isName_append (by decide) hrest (by decide)

theorem isName_pairSet (rule : Numbered) : isName rule.pairSet = true :=
  isName_append (by decide) (all_isWordChar_toString rule.number) (by decide)

end Numbered

theorem isName_tag (kind : Kind) : isName kind.tag = true := by cases kind <;> decide

theorem isName_sharedArray (kind : Kind) : isName (kind.stem ++ "_viol") = true := by
  cases kind <;> decide

/-- The symbols that indices bind, and the parameters. -/
def symbolNames : List String :=
  ["m", "n", "s", "t", "a", "h", "p", "i", "teams", "slots", "matches_per_slot"]

theorem isName_of_mem_symbolNames {name : String} (h : name ∈ symbolNames) :
    isName name = true := by
  revert name
  decide

namespace Zimpl

attribute [simp] Arith.legible SetTerm.legible Index.legible Condition.legible Linear.legible
  Arith.asRead SetTerm.asRead Index.asRead Condition.asRead SetTerm.isDifference
  Linear.isTerm Row.legible Subto.legible VarIndex.exact VarDecl.legible
    Statement.legible Arith.exact
  SetTerm.exact Index.exact Arith.plus Arith.times setProduct

section Terms

variable {vars : List String}

attribute [simp] Arith.allLegible_eq_all SetTerm.allLegible_eq_all Linear.allLegible_eq_all
  Arith.allAsRead_eq_map SetTerm.allAsRead_eq_map

@[simp] theorem Arith.int_ofNat (n : Nat) :
    Arith.int (no_index (OfNat.ofNat n)) = OfNat.ofNat n := rfl

@[simp] theorem Arith.plus_ofNat (a : Arith) (n : Nat) :
    a.plus (no_index (OfNat.ofNat n)) = .add a (OfNat.ofNat n) := rfl

@[simp] theorem Arith.add_eq (a b : Arith) : a + b = .add a b := rfl

@[simp] theorem Arith.sub_eq (a b : Arith) : a - b = .sub a b := rfl

@[simp] theorem Arith.mul_eq (a b : Arith) : a * b = .mul a b := rfl

@[simp] theorem Arith.div_eq (a b : Arith) : a / b = .div a b := rfl

@[simp] theorem Index.legible_over (symbols : List String) (domain : SetTerm) :
    (Index.over symbols domain).legible vars =
      (!symbols.isEmpty && symbols.all isName && domain.legible vars) := by
  simp [Index.over]

@[simp] theorem SetTerm.legible_ids (ids : List Int) : (SetTerm.ids ids).legible vars = true := by
  simp [SetTerm.ids]

@[simp] theorem SetTerm.asRead_ids (ids : List Int) : (SetTerm.ids ids).asRead = .ids ids := by
  simp [SetTerm.ids]

namespace Linear

/-- What a legible term adds to a sum is legible, and there is something. -/
theorem legible_summands {term : Linear} (h : term.legible vars = true) :
    term.summands ≠ [] ∧ ∀ summand ∈ term.summands, summand.legible vars = true := by
  cases term with
  | sum terms => simpa [summands] using h
  | _ => simpa [summands] using h

theorem legible_plus {terms : List Linear} (hne : terms ≠ [])
    (h : ∀ term ∈ terms, term.legible vars = true) : (plus terms).legible vars = true := by
  have hall : ∀ summand ∈ terms.flatMap summands, summand.legible vars = true := by
    intro summand hsummand
    obtain ⟨term, hterm, hsummand⟩ := List.mem_flatMap.mp hsummand
    exact (legible_summands (h term hterm)).2 summand hsummand
  have hsome : terms.flatMap summands ≠ [] := by
    obtain ⟨first, others, rfl⟩ := List.exists_cons_of_ne_nil hne
    simp [(legible_summands (h first (.head _))).1]
  unfold plus
  split
  · rename_i term hterm
    exact hall term (hterm ▸ .head _)
  · rw [Linear.legible, Linear.allLegible_eq_all, Bool.and_eq_true, Bool.not_eq_true',
      List.isEmpty_eq_false_iff]
    exact ⟨hsome, List.all_eq_true.mpr hall⟩

variable (vars) in
/-- A sum of legible terms, each of them a summand of its own. -/
structure IsSum (term : Linear) : Prop where
  summands_ne_nil : term.summands ≠ []
  summands : ∀ summand ∈ term.summands, summand.legible vars = true ∧ summand.isTerm = true

theorem isSingle_of_isTerm {term : Linear} (h : term.isTerm = true) : term.isSingle = true := by
  cases term <;> first | rfl | nomatch h

theorem isSum_of_isTerm {term : Linear} (h : term.legible vars = true)
    (hterm : term.isTerm = true) : term.IsSum vars := by
  constructor <;> simp [summands_of_isSingle (isSingle_of_isTerm hterm), h, hterm]

theorem IsSum.plus {terms : List Linear} (hne : terms ≠ []) (h : ∀ term ∈ terms, term.IsSum vars) :
    (plus terms).IsSum vars := by
  have hall : ∀ summand ∈ terms.flatMap Linear.summands,
      summand.legible vars = true ∧ summand.isTerm = true :=
    List.forall_mem_flatMap.mpr fun term hterm => (h term hterm).summands
  have hsome : terms.flatMap Linear.summands ≠ [] := by
    obtain ⟨first, others, rfl⟩ := List.exists_cons_of_ne_nil hne
    simp [(h first (.head _)).summands_ne_nil]
  have hsummands : (Linear.plus terms).summands = terms.flatMap Linear.summands :=
    summands_plus fun term hterm => List.all_eq_true.mpr fun summand hsummand =>
      isSingle_of_isTerm ((h term hterm).summands summand hsummand).2
  exact ⟨hsummands ▸ hsome, hsummands ▸ hall⟩

theorem IsSum.legible {term : Linear} (h : term.IsSum vars) : term.legible vars = true := by
  obtain ⟨hne, hall⟩ := h
  cases term with
  | sum terms =>
    rw [Linear.legible, Linear.allLegible_eq_all, Bool.and_eq_true, Bool.not_eq_true',
      List.isEmpty_eq_false_iff]
    exact ⟨hne, List.all_eq_true.mpr fun term hterm => (hall term hterm).1⟩
  | _ => exact (hall _ (.head _)).1

@[simp] theorem isTight_sumOver (index : Index) (body : Linear) :
    (Linear.sumOver index body).isTight = true := rfl

theorem IsSum.isTight {term : Linear} (h : term.IsSum vars) : term.isTight = true := by
  cases term with
  | const value => nomatch (h.summands _ (.head _)).2
  | _ => rfl

end Linear

end Terms

end Zimpl

section Shared

variable {vars : List String}

/-- None of the symbols and parameters is a variable. -/
def ApartFromSymbols (vars : List String) : Prop := ∀ name ∈ symbolNames, name ∉ vars

theorem ApartFromSymbols.notMem (hvars : ApartFromSymbols vars) {name : String}
    (h : name ∈ symbolNames) : name ∉ vars := hvars name h

theorem ApartFromSymbols.legible (hvars : ApartFromSymbols vars) {name : String}
    (h : name ∈ symbolNames) : (Arith.name name).legible vars = true := by
  simp [isName_of_mem_symbolNames h, hvars.notMem h]

theorem isSum_playedIn {a b slot : Arith} (ha : a.legible vars = true) (hb : b.legible vars = true)
    (hslot : slot.legible vars = true) : (playedIn a b slot).IsSum vars :=
  Linear.isSum_of_isTerm (by simp +decide [playedIn, ha, hb, hslot]) rfl

/-- Either side counts something. -/
theorem isSum_onSide {home away : Linear} (side : Side) (hhome : home.IsSum vars)
    (haway : away.IsSum vars) : (onSide side home away).IsSum vars := by
  cases side <;> refine Linear.IsSum.plus ?_ ?_ <;>
    simp [Side.countsHome, Side.countsAway, hhome, haway]

/-- A violation may stand in rows and, as a summand of its own, in an objective. -/
structure Violation.Legible (vars : List String) (violation : Violation) : Prop where
  declarations : ∀ statement ∈ violation.declarations, statement.legible vars = true
  inRow : violation.inRow.legible vars = true
  inRow_isTight : violation.inRow.isTight = true
  total : violation.total.legible vars = true
  total_isTerm : violation.total.isTerm = true

/-- All statements of a fragment are legible, and its charges are summands of their own. -/
structure Fragment.Legible (vars : List String) (fragment : Fragment) : Prop where
  declarations : ∀ statement ∈ fragment.declarations, statement.legible vars = true
  rows : ∀ block ∈ fragment.subtos, block.legible vars = true
  charges : ∀ charge ∈ fragment.charges, charge.legible vars = true ∧ charge.isTerm = true

theorem Fragment.legible_empty (vars : List String) : Fragment.Legible vars {} :=
  ⟨nofun, nofun, nofun⟩

theorem Fragment.Legible.append {a b : Fragment} (ha : a.Legible vars) (hb : b.Legible vars) :
    (a ++ b).Legible vars :=
  ⟨List.forall_mem_append.mpr ⟨ha.declarations, hb.declarations⟩,
    List.forall_mem_append.mpr ⟨ha.rows, hb.rows⟩,
    List.forall_mem_append.mpr ⟨ha.charges, hb.charges⟩⟩

theorem Fragment.Legible.uncharged {fragment : Fragment} (h : fragment.Legible vars) :
    Fragment.Legible vars { fragment with charges := [] } :=
  ⟨h.declarations, h.rows, nofun⟩

/-- A term that rows may be relaxed by, if there is one. -/
def Relaxes (vars : List String) (violation : Option Linear) : Prop :=
  ∀ term ∈ violation, term.legible vars = true ∧ term.isTight = true

theorem Strength.legible_relax {strength : Strength} {violation : Violation}
    {subtos : Option Linear → List Subto}
    (hviolation : strength.isSoft = true → violation.Legible vars)
    (hrows : ∀ violation, Relaxes vars violation → ∀ block ∈ subtos violation,
      block.legible vars = true) :
    (strength.relax violation subtos).Legible vars := by
  cases strength with
  | hard => exact ⟨nofun, hrows none nofun, nofun⟩
  | soft penalty =>
    have hviolation := hviolation rfl
    refine ⟨hviolation.declarations, hrows _ ?_, ?_⟩
    · rintro term ⟨⟩
      exact ⟨hviolation.inRow, hviolation.inRow_isTight⟩
    · intro charge hcharge
      obtain rfl := List.mem_singleton.mp hcharge
      have htight := isTight_of_isTerm hviolation.total_isTerm
      exact ⟨by rw [Linear.legible, hviolation.total, htight]; rfl, hviolation.total_isTerm⟩

theorem legible_atMost (bound : Nat) {violation : Option Linear} (h : Relaxes vars violation) :
    (atMost bound violation).legible vars = true := by
  cases violation with
  | none => rfl
  | some term =>
    refine Linear.legible_plus (by simp) ?_
    simp [(h term rfl).1]

theorem legible_atLeast (bound : Nat) {violation : Option Linear} (h : Relaxes vars violation) :
    (atLeast bound violation).legible vars = true := by
  cases violation with
  | none => rfl
  | some term =>
    obtain ⟨hterm, htight⟩ := h term rfl
    rw [atLeast, Linear.legible, hterm, htight]
    rfl

end Shared

end RoundRobin
