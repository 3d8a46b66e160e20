import RoundRobin.Proofs.Written.Spelling
import RoundRobin.Zimpl.Meaning

/-! The variables of a term, from its tree, its value and its text. The value depends on no other
variables, and where variables are not called like anything else in a term, they are read off its
text in the order in which they are collected from the tree. -/

namespace RoundRobin

namespace Written

def Token.identifier? : Token → Option String
  | .word name => if isIdentifier name then some name else none
  | .number _ | .symbol _ => none

/-- The identifiers of a text, from left to right and with repeats. -/
def identifiers (text : String) : List String :=
  (tokensOf text.toList).filterMap Token.identifier?

/-- The identifiers among some tokens that are names of variables. -/
def variablesIn (vars : List String) (tokens : List Token) : List String :=
  (tokens.filterMap Token.identifier?).filter (· ∈ vars)

section VariablesIn

variable {vars : List String} {tokens : List Token}

@[simp] theorem variablesIn_nil : variablesIn vars [] = [] := rfl

@[simp] theorem variablesIn_append (a b : List Token) :
    variablesIn vars (a ++ b) = variablesIn vars a ++ variablesIn vars b := by
  simp only [variablesIn, List.filterMap_append, List.filter_append]

@[simp] theorem variablesIn_symbol (c : Char) (tokens : List Token) :
    variablesIn vars (.symbol c :: tokens) = variablesIn vars tokens := rfl

@[simp] theorem variablesIn_number (value : Nat) (tokens : List Token) :
    variablesIn vars (.number value :: tokens) = variablesIn vars tokens := rfl

theorem variablesIn_other {word : String} (h : word ∉ vars) :
    variablesIn vars (.word word :: tokens) = variablesIn vars tokens := by
  rw [variablesIn, List.filterMap_cons, Token.identifier?]
  cases isIdentifier word
  · rfl
  · exact List.filter_cons_of_neg (by simpa using h)

theorem variablesIn_variable {name : String} (hidentifier : isIdentifier name = true)
    (h : name ∈ vars) :
    variablesIn vars (.word name :: tokens) = name :: variablesIn vars tokens := by
  rw [variablesIn, List.filterMap_cons, Token.identifier?, if_pos hidentifier]
  exact List.filter_cons_of_pos (by simpa using h)

@[simp] theorem variablesIn_int (value : Int) : variablesIn vars (intTokens value) = [] := by
  unfold intTokens
  split <;> rfl

@[simp] theorem variablesIn_paren (tokens : List Token) :
    variablesIn vars (parenTokens tokens) = variablesIn vars tokens := by
  simp [parenTokens]

@[simp] theorem variablesIn_enclose (least level : Nat) (tokens : List Token) :
    variablesIn vars (encloseTokens least level tokens) = variablesIn vars tokens := by
  unfold encloseTokens
  split <;> simp

@[simp] theorem variablesIn_join (mark : Char) (items : List (List Token)) :
    variablesIn vars (joinTokens (.symbol mark) items) = items.flatMap (variablesIn vars) := by
  have hmarked : variablesIn vars (items.flatMap (.symbol mark :: ·)) =
      items.flatMap (variablesIn vars) := by
    induction items with
    | nil => rfl
    | cons item items ih => rw [List.flatMap_cons, variablesIn_append, ih]; rfl
  rw [← hmarked]
  cases items <;> rfl

theorem variablesIn_words {names : List String} (h : ∀ name ∈ names, name ∉ vars) :
    variablesIn vars (wordTokens names) = [] := by
  rw [wordTokens, variablesIn_join, List.flatMap_map, List.flatMap_eq_nil_iff]
  exact fun name hname => variablesIn_other (h name hname)

end VariablesIn

end Written

namespace Zimpl

open Written

mutual

/-- The mentions of sets, parameters and symbols in a term, in its subscripts as well. -/
def Linear.groundMentions : Linear → List Mention
  | .const value => value.mentions
  | .var _ subscripts => Arith.allMentions subscripts
  | .sum terms => Linear.allGroundMentions terms
  | .diff a b => a.groundMentions ++ b.groundMentions
  | .scaled factor term => factor.mentions ++ term.groundMentions
  | .weighted term _ => term.groundMentions
  | .sumOver index body => index.mentions ++ body.groundMentions
  | .abs term => term.groundMentions

def Linear.allGroundMentions : List Linear → List Mention
  | [] => []
  | term :: terms => term.groundMentions ++ Linear.allGroundMentions terms

end

/-- The words that a term is written with besides its names. -/
def termWords : List String :=
  ["sum", "in", "with", "vabs", "floor", "min", "card", "subsets", "indexset"]

/-- No variable is called like a name that is mentioned. -/
def Unmentioned (vars : List String) (mentions : List Mention) : Prop :=
  ∀ mention ∈ mentions, mention.name ∉ vars

/-- The variables of a term have some of these names, and no other word of its text is one of
them. -/
structure Linear.TellsApart (term : Linear) (vars : List String) : Prop where
  complete : ∀ name ∈ term.varNames, name ∈ vars
  ground : Unmentioned vars term.groundMentions
  words : termWords.Disjoint vars

section Tokens

variable {vars : List String}

theorem unmentioned_append {a b : List Mention} :
    Unmentioned vars (a ++ b) ↔ Unmentioned vars a ∧ Unmentioned vars b :=
  List.forall_mem_append

theorem unmentioned_used {name : String} {mentions : List Mention} :
    Unmentioned vars (.used name :: mentions) ↔ name ∉ vars ∧ Unmentioned vars mentions :=
  List.forall_mem_cons

theorem unmentioned_bound {symbols : List String} :
    Unmentioned vars (symbols.map .bound) ↔ ∀ symbol ∈ symbols, symbol ∉ vars :=
  List.forall_mem_map

theorem variablesIn_termWord (hwords : termWords.Disjoint vars) (word : String)
    (hword : word ∈ termWords) (tokens : List Token) :
    variablesIn vars (.word word :: tokens) = variablesIn vars tokens :=
  variablesIn_other (hwords hword)

mutual

/-- Arithmetic, sets and indices that mention no variable are written without one. -/
theorem Arith.variablesIn_tokens (hwords : termWords.Disjoint vars) : (a : Arith) →
    Unmentioned vars a.mentions → variablesIn vars a.tokens = []
  | .int value, _ => variablesIn_int value
  | .name _, h => variablesIn_other (unmentioned_used.mp h).1
  | .add a b, h | .sub a b, h | .mul a b, h | .div a b, h => by
    obtain ⟨ha, hb⟩ := unmentioned_append.mp h
    simp [Arith.tokens, a.variablesIn_tokens hwords ha, b.variablesIn_tokens hwords hb]
  | .floor a, h => by
    have ha : variablesIn vars a.tokens = [] := a.variablesIn_tokens hwords h
    simp [Arith.tokens, variablesIn_termWord hwords "floor" (by decide), ha]
  | .min a b, h => by
    obtain ⟨ha, hb⟩ := unmentioned_append.mp h
    simp [Arith.tokens, variablesIn_termWord hwords "min" (by decide),
      a.variablesIn_tokens hwords ha, b.variablesIn_tokens hwords hb]
  | .card set, h => by
    have hset : variablesIn vars set.tokens = [] := set.variablesIn_tokens hwords h
    simp [Arith.tokens, variablesIn_termWord hwords "card" (by decide), hset]

theorem Arith.variablesIn_tokensAll (hwords : termWords.Disjoint vars) : (as : List Arith) →
    Unmentioned vars (Arith.allMentions as) → (Arith.tokensAll as).flatMap (variablesIn vars) = []
  | [], _ => rfl
  | a :: as, h => by
    obtain ⟨ha, has⟩ := unmentioned_append.mp h
    rw [Arith.tokensAll, List.flatMap_cons, a.variablesIn_tokens hwords ha,
      Arith.variablesIn_tokensAll hwords as has, List.append_nil]

theorem SetTerm.variablesIn_tokens (hwords : termWords.Disjoint vars) : (s : SetTerm) →
    Unmentioned vars s.mentions → variablesIn vars s.tokens = []
  | .name _, h => variablesIn_other (unmentioned_used.mp h).1
  | .member family index, h => by
    obtain ⟨hfamily, hindex⟩ := unmentioned_used.mp h
    simp [SetTerm.tokens, variablesIn_other hfamily, index.variablesIn_tokens hwords hindex]
  | .range first last, h => by
    obtain ⟨hfirst, hlast⟩ := unmentioned_append.mp h
    simp [SetTerm.tokens, first.variablesIn_tokens hwords hfirst,
      last.variablesIn_tokens hwords hlast]
  | .list elements, h => by
    have helements : (Arith.tokensAll elements).flatMap (variablesIn vars) = [] :=
      Arith.variablesIn_tokensAll hwords elements h
    simp only [SetTerm.tokens, variablesIn_append, variablesIn_join, helements]
    rfl
  | .product factors, h => by
    rw [SetTerm.tokens, variablesIn_join]
    exact SetTerm.variablesIn_factorTokens hwords factors h
  | .minus a b, h => by
    obtain ⟨ha, hb⟩ := unmentioned_append.mp h
    simp [SetTerm.tokens, a.variablesIn_tokens hwords ha, b.variablesIn_tokens hwords hb]
  | .builder index, h => by
    have hindex : variablesIn vars index.tokens = [] := index.variablesIn_tokens hwords h
    simp [SetTerm.tokens, hindex]
  | .subsets set size, h => by
    have hset : variablesIn vars set.tokens = [] := set.variablesIn_tokens hwords h
    simp [SetTerm.tokens, variablesIn_termWord hwords "subsets" (by decide), hset]
  | .indexset family, h => by
    simp [SetTerm.tokens, variablesIn_termWord hwords "indexset" (by decide),
      variablesIn_other (unmentioned_used.mp h).1]

theorem SetTerm.variablesIn_factorTokens (hwords : termWords.Disjoint vars) : (ss : List SetTerm) →
    Unmentioned vars (SetTerm.allMentions ss) →
      (SetTerm.factorTokens ss).flatMap (variablesIn vars) = []
  | [], _ => rfl
  | s :: ss, h => by
    obtain ⟨hs, hss⟩ := unmentioned_append.mp h
    rw [SetTerm.factorTokens, List.flatMap_cons, SetTerm.variablesIn_factorTokens hwords ss hss,
      List.append_nil]
    split <;> simp [s.variablesIn_tokens hwords hs]

theorem Index.variablesIn_tokens (hwords : termWords.Disjoint vars) : (index : Index) →
    Unmentioned vars index.mentions → variablesIn vars index.tokens = []
  | .mk symbols domain condition, h => by
    obtain ⟨hbefore, hcondition⟩ := unmentioned_append.mp h
    obtain ⟨hdomain, hsymbols⟩ := unmentioned_append.mp hbefore
    simp [Index.tokens, variablesIn_words (unmentioned_bound.mp hsymbols),
      variablesIn_termWord hwords "in" (by decide), domain.variablesIn_tokens hwords hdomain,
      condition.variablesIn_tokens hwords hcondition]

theorem Condition.variablesIn_tokens (hwords : termWords.Disjoint vars) : (condition : Condition) →
    Unmentioned vars condition.mentions → variablesIn vars condition.tokens = []
  | .always, _ => rfl
  | .ne a b, h | .lt a b, h => by
    obtain ⟨ha, hb⟩ := unmentioned_append.mp h
    simp [Condition.tokens, variablesIn_termWord hwords "with" (by decide),
      a.variablesIn_tokens hwords ha, b.variablesIn_tokens hwords hb]

end

@[simp] theorem Linear.variablesIn_operandTokens (term : Linear) :
    variablesIn vars (if term.isLoose then parenTokens term.tokens else term.tokens) =
      variablesIn vars term.tokens := by
  split <;> simp

mutual

/-- A term is written with its variables in the order in which they are collected. -/
theorem Linear.variablesIn_tokens (hwords : termWords.Disjoint vars) : (term : Linear) →
    Identified term.mentions → (∀ name ∈ term.varNames, name ∈ vars) →
      Unmentioned vars term.groundMentions → variablesIn vars term.tokens = term.varNames
  | .const value, _, _, hground => value.variablesIn_tokens hwords hground
  | .var name [], hids, hvars, _ =>
    variablesIn_variable (identified_used.mp hids).1 (List.forall_mem_singleton.mp hvars)
  | .var name (first :: subscripts), hids, hvars, hground => by
    have hsubscripts :
        ((first :: subscripts).map Arith.tokens).flatMap (variablesIn vars) = [] := by
      rw [← Arith.tokensAll_eq_map]
      exact Arith.variablesIn_tokensAll hwords (first :: subscripts) hground
    have hname : ∀ tokens,
        variablesIn vars (.word name :: tokens) = name :: variablesIn vars tokens :=
      fun _ => variablesIn_variable (identified_used.mp hids).1 (List.forall_mem_singleton.mp hvars)
    simp only [Linear.tokens, Linear.varNames, variablesIn_append, variablesIn_join,
      hsubscripts, hname]
    rfl
  | .sum terms, hids, hvars, hground => by
    rw [Linear.tokens, variablesIn_join]
    exact Linear.variablesIn_tokensAll hwords terms hids hvars hground
  | .diff a b, hids, hvars, hground => by
    obtain ⟨haids, hbids⟩ := identified_append.mp hids
    obtain ⟨havars, hbvars⟩ := List.forall_mem_append.mp hvars
    obtain ⟨haground, hbground⟩ := unmentioned_append.mp hground
    simp [Linear.tokens, Linear.varNames, a.variablesIn_tokens hwords haids havars haground,
      b.variablesIn_tokens hwords hbids hbvars hbground]
  | .scaled factor term, hids, hvars, hground => by
    obtain ⟨hfactor, hterm⟩ := unmentioned_append.mp hground
    simp [Linear.tokens, Linear.varNames, factor.variablesIn_tokens hwords hfactor,
      term.variablesIn_tokens hwords (identified_append.mp hids).2 hvars hterm]
  | .weighted term weight, hids, hvars, hground => by
    have hterm : variablesIn vars term.tokens = term.varNames :=
      term.variablesIn_tokens hwords hids hvars hground
    simp [Linear.tokens, Linear.varNames, hterm]
  | .sumOver index body, hids, hvars, hground => by
    obtain ⟨hindex, hbody⟩ := unmentioned_append.mp hground
    simp [Linear.tokens, Linear.varNames, variablesIn_termWord hwords "sum" (by decide),
      index.variablesIn_tokens hwords hindex,
      body.variablesIn_tokens hwords (identified_append.mp hids).2 hvars hbody]
  | .abs term, hids, hvars, hground => by
    have hterm : variablesIn vars term.tokens = term.varNames :=
      term.variablesIn_tokens hwords hids hvars hground
    simp [Linear.tokens, Linear.varNames, variablesIn_termWord hwords "vabs" (by decide), hterm]

theorem Linear.variablesIn_tokensAll (hwords : termWords.Disjoint vars) : (terms : List Linear) →
    Identified (Linear.allMentions terms) → (∀ name ∈ Linear.varNamesAll terms, name ∈ vars) →
      Unmentioned vars (Linear.allGroundMentions terms) →
        (Linear.tokensAll terms).flatMap (variablesIn vars) = Linear.varNamesAll terms
  | [], _, _, _ => rfl
  | term :: terms, hids, hvars, hground => by
    obtain ⟨hids, hidsAll⟩ := identified_append.mp hids
    obtain ⟨hvars, hvarsAll⟩ := List.forall_mem_append.mp hvars
    obtain ⟨hground, hgroundAll⟩ := unmentioned_append.mp hground
    rw [Linear.tokensAll, List.flatMap_cons, term.variablesIn_tokens hwords hids hvars hground,
      Linear.variablesIn_tokensAll hwords terms hidsAll hvarsAll hgroundAll, Linear.varNamesAll]

end

end Tokens

namespace Linear

section Value

variable {a b : Assignment}

mutual

theorem value?_of_agree : (term : Linear) → (env : Env) →
    (∀ name ∈ term.varNames, a name = b name) → term.value? env a = term.value? env b
  | .const _, _, _ => rfl
  | .var name _, env, h => by
    rw [value?, value?, List.forall_mem_singleton.mp h]
  | .sum terms, env, h => sumOf?_of_agree terms env h
  | .diff first second, env, h => by
    obtain ⟨hfirst, hsecond⟩ := List.forall_mem_append.mp h
    rw [value?, value?, first.value?_of_agree env hfirst, second.value?_of_agree env hsecond]
  | .scaled _ term, env, h | .weighted term _, env, h | .abs term, env, h => by
    rw [value?, value?, term.value?_of_agree env h]
  | .sumOver index body, env, h => by
    -- The body is evaluated in other environments, but over the same assignments.
    have hbody : (fun inner => body.value? inner a) = fun inner => body.value? inner b :=
      funext fun inner => body.value?_of_agree inner h
    rw [value?, value?, hbody]

theorem sumOf?_of_agree : (terms : List Linear) → (env : Env) →
    (∀ name ∈ varNamesAll terms, a name = b name) → sumOf? env a terms = sumOf? env b terms
  | [], _, _ => rfl
  | term :: terms, env, h => by
    obtain ⟨hterm, hterms⟩ := List.forall_mem_append.mp h
    rw [sumOf?, sumOf?, term.value?_of_agree env hterm, sumOf?_of_agree terms env hterms]

end

end Value

/-- The variables of a term are all that its value depends on. They are the identifiers of its text
that are names of variables, from left to right and with repeats, if all names in the term are
identifiers and nothing else in it is called like a variable. -/
theorem varNames_complete (term : Linear) :
    (∀ env a b, (∀ name ∈ term.varNames, a name = b name) →
        term.value? env a = term.value? env b) ∧
      ∀ vars, Identified term.mentions → term.TellsApart vars →
        (identifiers term.text).filter (· ∈ vars) = term.varNames := by
  refine ⟨fun env _ _ h => term.value?_of_agree env h, fun vars hids hvars => ?_⟩
  rw [identifiers, (term.spells_of_identified hids).tokensOf_eq]
  exact term.variablesIn_tokens hvars.words hids hvars.complete hvars.ground

/-- A weighted sum over slots less a scaled distance. -/
def weighed : Linear :=
  .diff (.weighted (.sumOver (.over ["s"] "S") (.var "x" ["m", "n", "s" - 1])) 5)
    (.scaled ("a" + 1) (.abs (.sum [.var "v" [], .var "x" ["m", "n", "t"]])))

/-- The weight is written inside the sum, symbols are passed over, and a variable is read each
time. -/
theorem varNames_complete_weighed :
    weighed.text = "sum <s> in S: x[m,n,s - 1] * 5 - (a + 1) * vabs(v + x[m,n,t])" ∧
      (identifiers weighed.text).filter (· ∈ ["v", "x"]) = ["x", "v", "x"] ∧
      ∀ env (values : Assignment), weighed.value? env values =
        weighed.value? env fun name => if name = "v" ∨ name = "x" then values name
          else fun _ => 0 := by
  have hvariables : ∀ name ∈ weighed.varNames, name = "v" ∨ name = "x" := by decide
  refine ⟨rfl, weighed.varNames_complete.2 ["v", "x"] ?_ ⟨?_, ?_, ?_⟩, fun env values => ?_⟩
  · unfold Identified
    decide
  · decide
  · unfold Unmentioned
    decide
  · exact List.disjoint_left.mpr (by decide)
  · refine weighed.varNames_complete.1 env _ _ fun name hname => ?_
    rw [if_pos (hvariables name hname)]

end Linear

end Zimpl

end RoundRobin
