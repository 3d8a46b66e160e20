import Mathlib
import RoundRobin.Proofs.Scoping.Program
import RoundRobin.Proofs.Written.Frame
import RoundRobin.Proofs.Written.Rules

/-! Formulated tournaments read back. A reader of the text, who knows of a program only which names
it declares as variables, finds in it the statements that were written, in their order. -/

namespace RoundRobin

open Zimpl Written

namespace Zimpl

def Entity.isVariable : Entity → Bool
  | .variable _ => true
  | _ => false

/-- The names among some declarations that are declared as variables. -/
def variableNames (entities : List (String × Entity)) : List String :=
  (entities.filter (·.2.isVariable)).map Prod.fst

theorem mem_variableNames {name : String} {dim : Nat} {entities : List (String × Entity)}
    (h : (name, .variable dim) ∈ entities) : name ∈ variableNames entities :=
  List.mem_map.mpr ⟨_, List.mem_filter.mpr ⟨h, rfl⟩, rfl⟩

theorem exists_of_mem_variableNames {name : String} {entities : List (String × Entity)}
    (h : name ∈ variableNames entities) : ∃ dim, (name, .variable dim) ∈ entities := by
  obtain ⟨⟨name, entity⟩, hmem, rfl⟩ := List.mem_map.mp h
  obtain ⟨hmem, hvariable⟩ := List.mem_filter.mp hmem
  match entity, hvariable with
  | .variable dim, _ => exact ⟨dim, hmem⟩

theorem Statement.variableNames_declared {context : Context} {s : Statement}
    {entities : List (String × Entity)} (h : s.declared? context = some entities) :
    variableNames entities = (Program.varDecls [s]).map (·.name) := by
  cases s with
  | param _ _ | subto _ | objective _ =>
    simp only [Statement.declared?] at h
    split at h
    · cases h
      rfl
    · nomatch h
  | set _ _ | setFamily _ _ | var _ =>
    simp only [Statement.declared?] at h
    obtain ⟨_, -, rfl⟩ := Option.map_eq_some_iff.mp h
    rfl
  | comment _ | blank =>
    cases h
    rfl

/-- The variables of a program are the names that it declares as variables. -/
theorem Program.names_varDecls {context : Context} {program : Program}
    {entities : List (String × Entity)} (h : program.declared? context = some entities) :
    program.varDecls.map (·.name) = variableNames entities := by
  induction program generalizing context entities with
  | nil =>
    cases h
    rfl
  | cons s program ih =>
    obtain ⟨first, hfirst, h⟩ := Option.bind_eq_some_iff.mp h
    obtain ⟨rest, hrest, h⟩ := Option.bind_eq_some_iff.mp h
    obtain rfl : first ++ rest = entities := Option.some.inj h
    have hcons : s :: program = [s] ++ program := rfl
    rw [hcons, varDecls_append, List.map_append, ih hrest, ← s.variableNames_declared hfirst]
    simp [variableNames]

end Zimpl

variable {t : Tournament} {options : Options}

/-- No symbol is a variable: none begins as the names of rules and odd families do, and those that
the frame declares are parameters. -/
theorem Tournament.apartFromSymbols (t : Tournament) (options : Options) :
    ApartFromSymbols (variableNames (t.entities options)) := by
  intro name hname hmem
  obtain ⟨dim, hmem⟩ := exists_of_mem_variableNames hmem
  have hheads : ∀ name ∈ symbolNames, (∀ head ∈ [Kind.ca3, .ca4, .se1, .br1, .br2, .fa2].flatMap
      fun kind => [kind.tag, kind.stem], ¬ head.toList <+: name.toList) ∧
      Apart name "K" ∧ Apart name "I" := by decide
  have hparams : ∀ name ∈ symbolNames, name ∈ Frame.fixedNames →
      (name, Entity.param) ∈ Frame.resourceEntities := by decide
  obtain ⟨hheads, hK, hI⟩ := hheads name hname
  have hframe : name ∈ (Frame.entities t options).map Prod.fst := by
    rcases List.mem_append.mp hmem with hframe | hrule
    · exact List.mem_map_of_mem hframe
    · obtain ⟨rule, -, hrule⟩ := List.mem_flatMap.mp hrule
      obtain ⟨head, hhead, rest, rfl⟩ := Numbered.append_of_mem_ownNames
        ((rule.sublist_entities options).subset (List.mem_map_of_mem hrule))
      exact absurd rfl (ne_append (hheads head hhead))
  rcases Frame.mem_names_of_mem_entities hframe with hfixed | hfamily
  · have hparam : (name, Entity.param) ∈ t.entities options :=
      List.mem_append_left _ (by simp [Frame.entities, hparams name hname hfixed])
    have hlookup := Context.lookup_of_mem (Numbered.fresh_entities t options) hmem
    rw [Context.lookup_of_mem (Numbered.fresh_entities t options) hparam] at hlookup
    cases hlookup
  · exact Frame.notMem_familyNames_of_apart hK hI hfamily

section Rules

variable {vars : List String} {rule : Numbered}

theorem Numbered.meetings_ne_nil {bound : MeetingBound} (hdemand : rule.rule.demand = .ga1 bound)
    (hcheck : rule.check options = .ok ()) (hskip : rule.isSkipped options = false) :
    bound.meetings ≠ [] := by
  intro hnone
  simp [check, hdemand, hnone, hskip] at hcheck

/-- What a rule adds is legible where its own violation is a variable. -/
theorem Numbered.legible_fragment (hvars : ApartFromSymbols vars)
    (hcheck : rule.check options = .ok ()) (hown : variableNames (rule.entities options) ⊆ vars) :
    (rule.fragment options).Legible vars := by
  cases hskip : rule.isSkipped options with
  | true =>
    rw [fragment, if_pos hskip]
    exact Fragment.legible_empty vars
  | false =>
    have hviolation : ∀ dim, rule.violationEntities dim ⊆ rule.entities options →
        rule.rule.strength.isSoft = true → rule.violationName ∈ vars := fun dim hsub hsoft =>
      have hmem : (rule.violationName, .variable dim) ∈ rule.violationEntities dim := by
        simp [violationEntities, hsoft]
      hown (mem_variableNames (hsub hmem))
    rw [entities, if_neg (by simp [hskip])] at hviolation
    rw [fragment_of_not_skipped hskip]
    cases hdemand : rule.rule.demand with
    | ca1 cap => exact cap.legible_fragment hvars
    | ca2 cap => exact cap.legible_fragment hvars
    | ca3 cap =>
      have hwindow := two_le_window hdemand hcheck
      exact WindowCap.legible_fragment hvars (by omega)
    | ca4 cap =>
      refine GroupCap.legible_fragment hvars fun hscope hsoft => hviolation 0 ?_ hsoft
      simp [hdemand, hscope]
    | ga1 bound =>
      exact MeetingBound.legible_fragment hvars (meetings_ne_nil hdemand hcheck hskip) options
    | se1 separation => exact separation.legible_fragment hvars
    | br1 breaks =>
      refine TeamBreaks.legible_fragment hvars fun hcounted hsoft => hviolation 0 ?_ hsoft
      simp [hdemand, isVoid, hcounted]
    | br2 breaks =>
      refine GroupBreaks.legible_fragment hvars fun hcounted hsoft => hviolation 0 ?_ hsoft
      simp [hdemand, isVoid, hcounted]
    | fa2 balance => exact balance.legible_fragment hvars

theorem Fragment.Legible.statements {fragment : Fragment} (h : fragment.Legible vars) :
    ∀ s ∈ fragment.statements, s.legible vars = true :=
  List.forall_mem_append.mpr ⟨h.declarations, List.forall_mem_map.mpr h.rows⟩

theorem legible_mostGames (hvars : ApartFromSymbols vars) : mostGames.legible vars = true := by
  simp +decide [mostGames, Objective.legible, playedIn, times, Index.over, hvars.notMem]

/-- The goal is legible where the charges are summands of their own. -/
theorem legible_goal (hvars : ApartFromSymbols vars) {charges : List Linear}
    (h : ∀ charge ∈ charges, charge.legible vars = true ∧ charge.isTerm = true) :
    ∀ s ∈ goal options charges, s.legible vars = true := by
  intro s hmem
  rcases mem_goal hmem with rfl | rfl | ⟨-, ⟨cutoff, -, hbounded, rfl⟩ | ⟨hsome, rfl⟩⟩
  · rfl
  · simp [legible_mostGames hvars]
  · have hsum : (Linear.plus (cutoff.bounded charges)).IsSum vars :=
      Linear.IsSum.plus hbounded fun charge hcharge =>
        have hcharge := h charge (List.mem_of_mem_drop hcharge)
        Linear.isSum_of_isTerm hcharge.1 hcharge.2
    simp +decide [hsum.legible]
  · simpa +decide [leastViolation, Objective.legible, hsome] using h

end Rules

namespace Tournament

/-- All statements of a formulated tournament are legible. -/
theorem legible_program (hcheck : ∀ rule ∈ t.numbered, rule.check options = .ok ()) :
    ∀ s ∈ t.program options, s.legible ((t.program options).varDecls.map (·.name)) = true := by
  rw [Program.names_varDecls (t.declared?_program options)]
  have hvars := t.apartFromSymbols options
  have hrules : ∀ rule ∈ t.numbered,
      (rule.fragment options).Legible (variableNames (t.entities options)) := by
    intro rule hmem
    refine Numbered.legible_fragment hvars (hcheck rule hmem) fun name hname => ?_
    obtain ⟨dim, hname⟩ := exists_of_mem_variableNames hname
    exact mem_variableNames (List.mem_append_right _ (List.mem_flatMap.mpr ⟨rule, hmem, hname⟩))
  refine List.forall_mem_append.mpr ⟨List.forall_mem_append.mpr ⟨?_, ?_⟩, ?_⟩
  · exact Frame.legible_statements hvars t options
  · refine List.forall_mem_flatMap.mpr fun rule hmem => ?_
    exact List.forall_mem_cons.mpr
      ⟨rfl, List.forall_mem_cons.mpr ⟨rfl, (hrules rule hmem).statements⟩⟩
  · exact legible_goal hvars
      (List.forall_mem_flatMap.mpr fun rule hmem => (hrules rule hmem).charges)

/-- The text of a formulated tournament reads back: cut at its semicolons, without comments and
blank lines, it is the statements of the program in their order, each of which reads as the same
declaration, or as a constraint or objective with the same names, indices and senses and with terms
of the same value. -/
theorem readBack {program : Program} (h : t.formulate options = .ok program) :
    ∃ read, readProgram? program.text = some read ∧
      List.Forall₂ Statement.Alike (program.filter Statement.isSpoken) read := by
  obtain ⟨rfl, hcheck⟩ := of_formulate h
  exact Program.exists_readProgram? (legible_program hcheck)

end Tournament

/-- Four teams whose games are to be apart, with one game wanted early. -/
def apartTournament : Tournament where
  name := some "Four\nteams"
  teams := [0, 1, 2, 3]
  slots := [0, 1, 2, 3, 4, 5]
  phased := true
  rules := [⟨.soft 5, .se1 ⟨2, [0, 1, 3]⟩⟩, ⟨.soft 3, .ga1 ⟨1, 1, [0], [⟨0, 1, Int.zero_ne_one⟩]⟩⟩,
    ⟨.soft 1, .br2 ⟨1, [0, 2], [3, 4, 5]⟩⟩, ⟨.hard, .fa2 ⟨2, [0, 1], [1, 5]⟩⟩]

/-- Sets of three teams, a cutoff behind the first charge, and a charge for the lower bound. -/
def apartOptions : Options := { oddSets := .three, cutoff := some ⟨4, 1⟩, minPenalty := .separate }

theorem readBack_apart :
    ∃ read, readProgram? (apartTournament.program apartOptions).text = some read ∧
      List.Forall₂ Statement.Alike
        ((apartTournament.program apartOptions).filter Statement.isSpoken) read :=
  have hprogram : apartTournament.formulate apartOptions =
    .ok (apartTournament.program apartOptions) := rfl
  Tournament.readBack hprogram

end RoundRobin
