import RoundRobin.Proofs.Meaning.Ground

/-! What the names of a formulated tournament stand for. The frame declares the same names for every
tournament; the names of odd families and of rules start with letters of their own, so they hide
none of these. -/

namespace RoundRobin

open Zimpl

/-- The sets of a size of some teams are the members of a family, which its indices count. -/
def HasFamily (env : Env) (size : Nat) (teams : Finset Int) : Prop :=
  ∃ members : List (List Int), (∀ member ∈ members, member.Nodup) ∧
    (∀ set, (∃ member ∈ members, member.toFinset = set) ↔ set ∈ teams.powersetCard size) ∧
    env.families.lookup ("K" ++ toString size) = some (members.map (List.map Tuple.one)) ∧
    (SetTerm.name ("I" ++ toString size)).Lists env Tuple.one (places members.length)

theorem HasFamily.extend {a b : Env} {size : Nat} {teams : Finset Int} {names : List String}
    (h : HasFamily a size teams) (hext : a.Extends names b) (hfamily : "K" ++ toString size ∉ names)
    (hindices : "I" ++ toString size ∉ names) : HasFamily b size teams := by
  obtain ⟨members, hnodup, hmembers, hlookup, hlists⟩ := h
  exact ⟨members, hnodup, hmembers, (hext.families _ hfamily).trans hlookup,
    hext.lists hindices hlists⟩

theorem Frame.adds_oddFamily (name : String) (size : Nat) {env : Env} {teams : Finset Int}
    (hteams : (SetTerm.name "T").Lists env Tuple.one teams) :
    ∃ after, Program.Adds ["K" ++ toString size, "I" ++ toString size] (Frame.oddFamily name size)
      env after ∧ HasFamily after size teams := by
  obtain ⟨order, horder, htuples⟩ := hteams
  obtain ⟨e1, h1, hfamily⟩ := Program.adds_setFamily ("K" ++ toString size) size htuples
  obtain ⟨e2, h2, hindices⟩ := Program.adds_set ("I" ++ toString size)
    (SetTerm.lists_indexset hfamily)
  have hapart : Apart "K" "I" := by decide
  have hall := h1.append h2
  refine ⟨e2, ⟨hall.toExtends, hall.declares⟩, sublistsOf size order, fun member h => ?_,
    horder.exists_sublist size, ?_, ?_⟩
  · exact horder.nodup.sublist (mem_sublistsOf.mp h).1
  · rw [h2.families _ (by simp [hapart.append_ne]), hfamily, sublistsOf_map]
  · rwa [sublistsOf_map, List.length_map] at hindices

/-- The names of the families of some sizes and of their indices. -/
def Frame.familyNames (families : List (String × Nat)) : List String :=
  families.flatMap fun family => ["K" ++ toString family.2, "I" ++ toString family.2]

theorem Frame.notMem_familyNames {size : Nat} {families : List (String × Nat)}
    (h : size ∉ families.map (·.2)) : "K" ++ toString size ∉ Frame.familyNames families ∧
      "I" ++ toString size ∉ Frame.familyNames families := by
  have hKI : Apart "K" "I" := by decide
  have hIK : Apart "I" "K" := by decide
  have hsize : ∀ family ∈ families, ∀ head : String,
      head ++ toString size ≠ head ++ toString family.2 := fun family hfamily head heq =>
    h (toString_injective (append_left_cancel heq) ▸ List.mem_map_of_mem hfamily)
  simp only [Frame.familyNames, List.mem_flatMap, List.mem_cons, List.not_mem_nil, or_false]
  constructor
  · rintro ⟨family, hfamily, heq | heq⟩
    · exact hsize family hfamily "K" heq
    · exact hKI.append_ne heq
  · rintro ⟨family, hfamily, heq | heq⟩
    · exact hIK.append_ne heq
    · exact hsize family hfamily "I" heq

theorem Frame.adds_oddFamilies {teams : Finset Int} :
    {families : List (String × Nat)} → {env : Env} → (families.map (·.2)).Nodup →
      (SetTerm.name "T").Lists env Tuple.one teams →
      ∃ after, Program.Adds (Frame.familyNames families)
          (families.flatMap fun (name, size) => Frame.oddFamily name size) env after ∧
        ∀ family ∈ families, HasFamily after family.2 teams
  | [], env, _, _ => ⟨env, Program.adds_nil env, fun _ h => nomatch h⟩
  | (name, size) :: families, env, hnodup, hteams => by
    obtain ⟨hsize, hnodup⟩ := List.nodup_cons.mp hnodup
    obtain ⟨e1, h1, hfamily⟩ := Frame.adds_oddFamily name size hteams
    have hteams1 := h1.lists (by simp [Apart.ne_append (show Apart "T" "K" by decide),
      Apart.ne_append (show Apart "T" "I" by decide)]) hteams
    obtain ⟨after, h2, hfamilies⟩ := adds_oddFamilies hnodup hteams1
    have hnames := Frame.notMem_familyNames hsize
    exact ⟨after, h1.append h2, List.forall_mem_cons.mpr
      ⟨hfamily.extend h2.toExtends hnames.1 hnames.2, hfamilies⟩⟩

theorem Frame.nodup_oddFamilies (t : Tournament) (options : Options) :
    ((Frame.oddFamilies t options).map (·.2)).Nodup := by
  unfold Frame.oddFamilies
  split
  · exact List.nodup_nil
  · exact List.nodup_singleton 3
  · rw [List.map_map]
    exact (List.nodup_range.filter _).map fun _ _ h => h

theorem Frame.adds_gameVariables {t : Tournament} {env : Env} (ground : Ground t env) :
    ∃ after, Program.Adds ["x", "bh", "ba"] (Frame.gameVariables t) env after ∧
      after.Ranges "x" Tuple.three (t.teamSet.offDiag ×ˢ t.slotSet) ∧
      (t.hasBreaks = true → after.Ranges "bh" Tuple.two (t.teamSet ×ˢ t.slotSet.erase 0) ∧
        after.Ranges "ba" Tuple.two (t.teamSet ×ˢ t.slotSet.erase 0)) := by
  obtain ⟨e1, h1, hx⟩ :=
    Program.adds_var_over "x" (SetTerm.lists_pairs_one ground.pairs ground.slotSet)
  unfold Frame.gameVariables
  split
  · have g1 := ground.extend h1.toExtends (by decide)
    obtain ⟨e2, h2, hbh⟩ :=
      Program.adds_var_over "bh" (SetTerm.lists_pairs g1.teamSet g1.laterSlots)
    have g2 := g1.extend h2.toExtends (by decide)
    obtain ⟨e3, h3, hba⟩ :=
      Program.adds_var_over "ba" (SetTerm.lists_pairs g2.teamSet g2.laterSlots)
    have r2 := h2.append h3
    have hall := h1.append r2
    exact ⟨e3, ⟨hall.toExtends, hall.declares⟩, r2.ranges (by decide) hx,
      fun _ => ⟨h3.ranges (by decide) hbh, hba⟩⟩
  · rename_i hbreaks
    exact ⟨e1, ⟨h1.toExtends.mono (by decide), h1.declares⟩, hx, fun h => absurd h hbreaks⟩

theorem Frame.adds_homeGames {t : Tournament} {env : Env} (hsymbols : env.symbols = [])
    (ground : Ground t env) :
    ∃ after, Program.Adds ["hg"] (Frame.homeGames t) env after ∧
      (t.hasBalance = true → after.Ranges "hg" Tuple.two (t.teamSet ×ˢ t.slotSet)) := by
  unfold Frame.homeGames
  dsimp only
  split
  · obtain ⟨e1, h1, hhg⟩ := Program.adds_var_bound "hg"
      (Index.runs_two (SetTerm.lists_pairs ground.teamSet ground.slotSet)
        (show env.symbols.lookup "t" = none by simp [hsymbols])
        (show env.symbols.lookup "s" = none by simp [hsymbols]) (by decide))
    exact ⟨e1, ⟨h1.toExtends, h1.declares⟩, fun _ => hhg⟩
  · rename_i hbalance
    exact ⟨env, (Program.adds_nil env).mono (by simp), fun h => absurd h hbalance⟩

/-- What the names that a frame declares stand for, whatever symbols are bound. -/
structure Scene (t : Tournament) (options : Options) (env : Env) : Prop extends Ground t env where
  games : env.Ranges "x" Tuple.three (t.teamSet.offDiag ×ˢ t.slotSet)
  homeBreaks : t.hasBreaks = true → env.Ranges "bh" Tuple.two (t.teamSet ×ˢ t.slotSet.erase 0)
  awayBreaks : t.hasBreaks = true → env.Ranges "ba" Tuple.two (t.teamSet ×ˢ t.slotSet.erase 0)
  homeGames : t.hasBalance = true → env.Ranges "hg" Tuple.two (t.teamSet ×ˢ t.slotSet)
  shared : options.soft = true → ∀ kind ∈ [Kind.ca1, .ca2, .ga1], HasShared env t kind
  sharedMin : options.soft = true → options.minPenalty = .separate → t.softCount .ga1 ≠ 0 →
    env.Ranges "ga1_min_viol" Tuple.one (t.softPlaces .ga1)
  families : ∀ family ∈ Frame.oddFamilies t options, HasFamily env family.2 t.teamSet

namespace Scene

variable {t : Tournament} {options : Options} {a b : Env}

theorem bind (h : Scene t options a) (symbol : String) (value : Rat) :
    Scene t options (a.bind symbol value) :=
  { h with }

/-- The names that every frame declares. -/
def names : List String :=
  Ground.names ++ ["x", "bh", "ba", "hg", "CA1", "CA2", "GA1", "ca1_viol", "ca2_viol", "ga1_viol",
    "ga1_min_viol"]

theorem extend (h : Scene t options a) {others : List String} (hext : a.Extends others b)
    (hnames : ∀ name ∈ names, name ∉ others)
    (hfamilies : ∀ size : Nat, "K" ++ toString size ∉ others ∧ "I" ++ toString size ∉ others) :
    Scene t options b where
  toGround := h.toGround.extend hext fun name hname =>
    hnames name (List.mem_append_left _ hname)
  games := hext.ranges (hnames _ (by decide)) h.games
  homeBreaks hbreaks := hext.ranges (hnames _ (by decide)) (h.homeBreaks hbreaks)
  awayBreaks hbreaks := hext.ranges (hnames _ (by decide)) (h.awayBreaks hbreaks)
  homeGames hbalance := hext.ranges (hnames _ (by decide)) (h.homeGames hbalance)
  shared hsoft kind hkind :=
    have hmem : ∀ kind ∈ [Kind.ca1, .ca2, .ga1], kind.tag ∈ names ∧
        kind.stem ++ "_viol" ∈ names := by
      decide
    (h.shared hsoft kind hkind).extend hext (hnames _ (hmem kind hkind).1)
      (hnames _ (hmem kind hkind).2)
  sharedMin hsoft hseparate hcount :=
    hext.ranges (hnames _ (by decide)) (h.sharedMin hsoft hseparate hcount)
  families family hfamily := (h.families family hfamily).extend hext
    (hfamilies family.2).1 (hfamilies family.2).2

end Scene

theorem Frame.notMem_familyNames_of_apart {name : String} {families : List (String × Nat)}
    (hK : Apart name "K") (hI : Apart name "I") : name ∉ Frame.familyNames families := by
  simp only [Frame.familyNames, List.mem_flatMap, List.mem_cons, List.not_mem_nil, or_false]
  rintro ⟨family, -, heq | heq⟩
  · exact hK.ne_append heq
  · exact hI.ne_append heq

namespace Zimpl

/-- Whether a statement neither declares a name nor sets a goal: it is a comment, an empty line or a
constraint. -/
def Statement.isSilent : Statement → Bool
  | .comment _ | .blank | .subto _ => true
  | _ => false

/-- Whether a statement is neither a constraint nor a goal. -/
def Statement.isPreliminary : Statement → Bool
  | .subto _ | .objective _ => false
  | _ => true

namespace Program

variable {program : Program}

theorem adds_of_isSilent (h : ∀ statement ∈ program, statement.isSilent = true) (env : Env) :
    Program.Adds [] program env env := by
  refine adds_silent env fun statement hmem env => ?_
  have hsilent := h statement hmem
  cases statement with
  | comment text | blank | subto block => rfl
  | _ => exact nomatch hsilent

theorem varDecls_of_isSilent (h : ∀ statement ∈ program, statement.isSilent = true) :
    varDecls program = [] := by
  refine List.filterMap_eq_nil_iff.mpr fun statement hmem => ?_
  have hsilent := h statement hmem
  cases statement with
  | var decl => exact nomatch hsilent
  | _ => rfl

theorem objectives_of_isSilent (h : ∀ statement ∈ program, statement.isSilent = true) :
    objectives program = [] := by
  refine List.filterMap_eq_nil_iff.mpr fun statement hmem => ?_
  have hsilent := h statement hmem
  cases statement with
  | objective goal => exact nomatch hsilent
  | _ => rfl

theorem subtos_of_isPreliminary (h : ∀ statement ∈ program, statement.isPreliminary = true) :
    subtos program = [] := by
  refine List.filterMap_eq_nil_iff.mpr fun statement hmem => ?_
  have hpreliminary := h statement hmem
  cases statement with
  | subto block => exact nomatch hpreliminary
  | _ => rfl

theorem objectives_of_isPreliminary (h : ∀ statement ∈ program, statement.isPreliminary = true) :
    objectives program = [] := by
  refine List.filterMap_eq_nil_iff.mpr fun statement hmem => ?_
  have hpreliminary := h statement hmem
  cases statement with
  | objective goal => exact nomatch hpreliminary
  | _ => rfl

end Program

end Zimpl

/-- The parts of a frame that declare nothing. -/
theorem Frame.isSilent_parts (t : Tournament) (options : Options) :
    ∀ part ∈ [Frame.heading t, Frame.schedule options, Frame.fixedCount options, Frame.breakCount t,
      Frame.halves t options, Frame.mirror options], ∀ statement ∈ part,
      statement.isSilent = true := by
  simp only [List.forall_mem_cons]
  refine ⟨?_, ?_, ?_, ?_, ?_, ?_, fun _ h => nomatch h⟩
  · unfold Frame.heading
    cases t.name <;> simp [Statement.isSilent]
  · simp [Frame.schedule, titled, Statement.isSilent]
  · unfold Frame.fixedCount
    split <;> simp [titled, Statement.isSilent]
  · unfold Frame.breakCount
    dsimp only
    split <;> simp [titled, Statement.isSilent]
  · unfold Frame.halves
    split <;> simp [titled, Statement.isSilent]
  · unfold Frame.mirror
    split <;> simp [titled, Statement.isSilent]

/-- The parts of a frame in front of its rows. -/
theorem Frame.isPreliminary_parts (t : Tournament) (options : Options) :
    ∀ part ∈ [Frame.heading t, Frame.resources t, Frame.sharedArrays t options,
      Frame.gameVariables t], ∀ statement ∈ part, statement.isPreliminary = true := by
  have harray : ∀ kind, ∀ statement ∈ Frame.sharedArray t options kind,
      statement.isPreliminary = true := fun kind => by
    unfold Frame.sharedArray
    split
    · exact List.forall_mem_nil _
    · split <;> simp [Statement.isPreliminary]
  simp only [List.forall_mem_cons]
  refine ⟨?_, ?_, ?_, ?_, fun _ h => nomatch h⟩
  · unfold Frame.heading
    cases t.name <;> simp [Statement.isPreliminary]
  · simp [Frame.resources, Statement.isPreliminary]
  · unfold Frame.sharedArrays
    dsimp only
    split
    · exact List.forall_mem_nil _
    · exact List.forall_mem_cons.mpr ⟨rfl, List.forall_mem_flatMap.mpr fun kind _ => harray kind⟩
  · unfold Frame.gameVariables
    split <;> simp [Statement.isPreliminary]

theorem Frame.scene (t : Tournament) (options : Options) :
    ∃ env, (Frame.statements t options).env? = some env ∧ env.symbols = [] ∧
      Scene t options env := by
  obtain ⟨e1, h1, g1⟩ := Frame.adds_resources t
  obtain ⟨e2, h2, hshared, hmin⟩ := Frame.adds_sharedArrays t options e1
  have g2 := g1.extend h2.toExtends (by decide)
  obtain ⟨e3, h3, hx, hbreaks⟩ := Frame.adds_gameVariables g2
  have g3 := g2.extend h3.toExtends (by decide)
  obtain ⟨e4, h4, hfamilies⟩ :=
    Frame.adds_oddFamilies (Frame.nodup_oddFamilies t options) g3.teamSet
  have hnames : ∀ name ∈ Scene.names, name ∉ Frame.familyNames (Frame.oddFamilies t options) :=
    fun name hname => Frame.notMem_familyNames_of_apart
      ((show ∀ name ∈ Scene.names, Apart name "K" by decide) name hname)
      ((show ∀ name ∈ Scene.names, Apart name "I" by decide) name hname)
  have g4 := g3.extend h4.toExtends fun name hname => hnames name (List.mem_append_left _ hname)
  have hsymbols : e4.symbols = [] :=
    h4.symbols.trans (h3.symbols.trans (h2.symbols.trans h1.symbols))
  obtain ⟨e5, h5, hhg⟩ := Frame.adds_homeGames hsymbols g4
  have r4 := h4.append h5
  have r3 := h3.append r4
  have hK : ∀ size : Nat, "hg" ≠ "K" ++ toString size := fun size =>
    Apart.ne_append (by decide)
  have hI : ∀ size : Nat, "hg" ≠ "I" ++ toString size := fun size =>
    Apart.ne_append (by decide)
  have hsilent := fun env part hpart =>
    Program.adds_of_isSilent (Frame.isSilent_parts t options part hpart) env
  have hheading := (hsilent {} _ (.head _)).append h1
  have hvariables := (hheading.append h2).append h3
  have hschedule := hvariables.append (hsilent e3 _ (.tail _ (.head _)))
  have hfixed := hschedule.append (hsilent e3 _ (.tail _ (.tail _ (.head _))))
  have hodd := hfixed.append h4
  have hcount := hodd.append (hsilent e4 _ (.tail _ (.tail _ (.tail _ (.head _)))))
  have hhalves := hcount.append (hsilent e4 _ (.tail _ (.tail _ (.tail _ (.tail _ (.head _))))))
  have hall := (hhalves.append h5).append
    (hsilent e5 _ (.tail _ (.tail _ (.tail _ (.tail _ (.tail _ (.head _)))))))
  have hx' : ∀ name ∈ ["x", "bh", "ba"],
      name ∉ Frame.familyNames (Frame.oddFamilies t options) ++ ["hg"] := fun name hname => by
    rw [List.mem_append, not_or]
    revert name
    exact fun name hname => ⟨hnames name (by revert name; decide), by revert name; decide⟩
  have hmem : ∀ kind ∈ [Kind.ca1, .ca2, .ga1],
      kind.tag ∈ ["CA1", "CA2", "GA1", "ca1_viol", "ca2_viol",
      "ga1_viol", "ga1_min_viol"] ∧
        kind.stem ++ "_viol" ∈ ["CA1", "CA2", "GA1", "ca1_viol", "ca2_viol",
      "ga1_viol", "ga1_min_viol"] := by decide
  have hshared' :
      ∀ name ∈ ["CA1", "CA2", "GA1", "ca1_viol", "ca2_viol", "ga1_viol", "ga1_min_viol"],
      name ∉ ["x", "bh", "ba"] ++
        (Frame.familyNames (Frame.oddFamilies t options) ++ ["hg"]) := fun name hname => by
    rw [List.mem_append, not_or, List.mem_append, not_or]
    exact ⟨by revert name; decide, hnames name (by revert name; decide), by revert name; decide⟩
  refine ⟨e5, hall.declares, h5.symbols.trans hsymbols, ?_⟩
  exact {
    toGround := g4.extend h5.toExtends (by decide)
    games := r4.ranges (hx' _ (by decide)) hx
    homeBreaks := fun h => r4.ranges (hx' _ (by decide)) (hbreaks h).1
    awayBreaks := fun h => r4.ranges (hx' _ (by decide)) (hbreaks h).2
    homeGames := hhg
    shared := fun hsoft kind hkind =>
      (hshared hsoft kind hkind).extend r3.toExtends (hshared' _ (hmem kind hkind).1)
        (hshared' _ (hmem kind hkind).2)
    sharedMin := fun hsoft hseparate hcount => r3.ranges (hshared' _ (by decide))
      (hmin hsoft hseparate hcount)
    families := fun family hfamily => (hfamilies family hfamily).extend h5.toExtends
      (by simpa using (hK family.2).symm) (by simpa using (hI family.2).symm) }

end RoundRobin
