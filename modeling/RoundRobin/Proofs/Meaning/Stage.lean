import RoundRobin.Proofs.Meaning.Charges
import RoundRobin.Proofs.Meaning.Seasons

/-! Whole programs. The names of a formulated tournament are declared one after another, and its
rows are those of the frame and of the rules that are not passed over. -/

namespace RoundRobin

open Zimpl

/-- Whether a rule can be formulated depends neither on its numbers nor on the options, except that
it may be passed over. -/
theorem Numbered.check_of_skipped {a b : Numbered} {options options' : Options}
    (hrule : a.rule = b.rule) (hskip : a.isSkipped options = true → b.isSkipped options' = true)
    (h : a.check options = .ok ()) : b.check options' = .ok () := by
  unfold check at h ⊢
  rw [hrule] at h
  cases hdemand : b.rule.demand with
  | ga1 bound =>
    rw [hdemand] at h
    dsimp only at h ⊢
    split at h
    · exact nomatch h
    · rename_i hmeetings
      refine if_neg fun ⟨hnone, hkept⟩ => hmeetings ⟨hnone, ?_⟩
      cases hskipped : a.isSkipped options with
      | false => rfl
      | true => exact absurd hkept (by rw [hskip hskipped]; decide)
  | se1 separation | br1 breaks | fa2 balance => rfl
  | ca1 cap | ca2 cap | ca3 cap | ca4 cap | br2 breaks =>
    rw [hdemand] at h
    exact h

/-- Of the options, only whether soft rules are formulated matters. -/
theorem Numbered.check_eq_of_soft {a b : Options} (h : a.soft = b.soft) : check a = check b := by
  funext rule
  rw [check, check, isSkipped, isSkipped, Rule.isSkipped, Rule.isSkipped, h]

theorem Program.adds_titled {names : List String} {title : String} {statements : List Statement}
    {env after : Env} (h : Program.Adds names statements env after) :
    Program.Adds names (titled title statements) env after :=
  ⟨h.toExtends, h.declares⟩

theorem Fragment.adds_statements {names : List String} {fragment : Fragment} {env after : Env}
    (h : Program.Adds names fragment.declarations env after) :
    Program.Adds names fragment.statements env after := by
  have hsubtos : ∀ statement ∈ fragment.subtos.map Statement.subto, ∀ env,
      statement.declare? env = some env := by
    simp [Statement.declare?]
  have hadds := h.append (Program.adds_silent after hsubtos)
  rwa [List.append_nil] at hadds

namespace Numbered

variable {t : Tournament} {options : Options} {env : Env}

theorem scene_extend {rule : Numbered} {after : Env} (scene : Scene t options env)
    (hext : env.Extends rule.ownNames after) : Scene t options after := by
  have hheads : ∀ head ∈ [Kind.ca3, .ca4, .se1, .br1, .br2, .fa2].flatMap
      fun kind => [kind.tag, kind.stem], (∀ name ∈ Scene.names, ¬ head.toList <+: name.toList) ∧
        Apart "K" head ∧ Apart "I" head := by
    decide
  refine scene.extend hext (fun name hname hown => ?_) fun size => ⟨fun hown => ?_, fun hown => ?_⟩
  · obtain ⟨head, hhead, rest, rfl⟩ := append_of_mem_ownNames hown
    exact ne_append ((hheads head hhead).1 _ hname) rfl
  · obtain ⟨head, hhead, rest, heq⟩ := append_of_mem_ownNames hown
    exact (hheads head hhead).2.1.append_ne heq
  · obtain ⟨head, hhead, rest, heq⟩ := append_of_mem_ownNames hown
    exact (hheads head hhead).2.2.append_ne heq

/-- A rule makes its own names known, if it is not passed over. -/
theorem adds_statements {rule : Numbered} (scene : Scene t options env)
    (hsymbols : env.symbols = []) (hcheck : rule.check options = .ok ()) :
    ∃ after, Program.Adds rule.ownNames (rule.statements options) env after ∧
      (rule.isSkipped options = false → rule.Known t after) := by
  cases hskip : rule.isSkipped options with
  | true =>
    refine ⟨env, Program.adds_titled (Fragment.adds_statements ?_), fun h => nomatch h⟩
    rw [fragment, if_pos hskip]
    exact (Program.adds_nil env).mono (List.nil_subset _)
  | false =>
    obtain ⟨after, hadds, known⟩ := adds_declarations scene hsymbols hcheck hskip
    exact ⟨after, Program.adds_titled (Fragment.adds_statements hadds), fun _ => known⟩

/-- Rules that differ in kind or number make all their names known. -/
theorem adds_rules : {rules : List Numbered} → {env : Env} → rules.Pairwise Distinct →
    (∀ rule ∈ rules, rule.check options = .ok ()) → Scene t options env → env.symbols = [] →
    ∃ after, Program.Adds (rules.flatMap ownNames) (rules.flatMap (statements options)) env after ∧
      Scene t options after ∧ ∀ rule ∈ rules, rule.isSkipped options = false → rule.Known t after
  | [], env, _, _, scene, _ => ⟨env, Program.adds_nil env, scene, fun _ h => nomatch h⟩
  | rule :: rules, env, hdistinct, hcheck, scene, hsymbols => by
    obtain ⟨hfirst, hrest⟩ := List.pairwise_cons.mp hdistinct
    obtain ⟨e1, h1, known⟩ := adds_statements scene hsymbols (hcheck rule (.head _))
    obtain ⟨after, h2, scene', hknown⟩ := adds_rules hrest (fun later h => hcheck later (.tail _ h))
      (scene_extend scene h1.toExtends) (h1.symbols.trans hsymbols)
    refine ⟨after, h1.append h2, scene', List.forall_mem_cons.mpr ⟨fun hskip => ?_, hknown⟩⟩
    refine (known hskip).extend h2.toExtends fun name hname hlater => ?_
    obtain ⟨later, hlater, hname'⟩ := List.mem_flatMap.mp hlater
    exact notMem_ownNames (hfirst later hlater) hname hname'

theorem pairwise_distinct (t : Tournament) : t.numbered.Pairwise Distinct :=
  (pairwise_allBehind [] t.rules).imp fun h hkind => (h hkind).1.ne

theorem nodup_numbered (t : Tournament) : t.numbered.Nodup :=
  (pairwise_distinct t).imp fun h heq =>
    h (congrArg (·.rule.kind) heq) (congrArg Numbered.number heq)

end Numbered

/-- What the names of a whole program stand for. -/
structure Stage (t : Tournament) (options : Options) (env : Env) : Prop extends
    Scene t options env where
  symbols : env.symbols = []
  known : ∀ rule ∈ t.numbered, rule.isSkipped options = false → rule.Known t env

theorem adds_goal (options : Options) (charges : List Linear) (env : Env) :
    Program.Adds [] (goal options charges) env env := by
  refine Program.adds_silent env fun statement hmem env => ?_
  rcases mem_goal hmem with rfl | rfl | ⟨-, ⟨cutoff, -, -, rfl⟩ | ⟨-, rfl⟩⟩ <;> rfl

/-- All names of a formulated tournament have a meaning. -/
theorem Tournament.stage {t : Tournament} {options : Options}
    (hcheck : ∀ rule ∈ t.numbered, rule.check options = .ok ()) :
    ∃ env, (t.program options).env? = some env ∧ Stage t options env := by
  obtain ⟨e1, h1, hsymbols, scene⟩ := Frame.scene t options
  obtain ⟨e2, h2, scene', hknown⟩ :=
    Numbered.adds_rules (Numbered.pairwise_distinct t) hcheck scene hsymbols
  have hgoal := h2.append (adds_goal options (t.charges options) e2)
  refine ⟨e2, ?_, ⟨scene', h2.symbols.trans hsymbols, hknown⟩⟩
  rw [Tournament.program, List.append_assoc, Program.env?, List.foldlM_append]
  rw [Program.env?] at h1
  rw [h1]
  exact hgoal.declares

end RoundRobin
