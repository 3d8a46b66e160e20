import Mathlib
import RoundRobin.Proofs.Written.Sets
import RoundRobin.Proofs.Written.Value

/-! Terms over variables read back as terms of the same value. A weight that is written behind a sum
over an index is read as part of its body, so what a product reads is stated with the weights behind
it. -/

namespace RoundRobin.Zimpl

open Written

/-- Weights as they are written behind a term. -/
def weightTokens (weights : List Int) : List Token :=
  weights.flatMap fun weight => .symbol '*' :: intTokens weight

section Reads

variable (vars : List String)

section Strengths

variable (tokens : List Token) (term : Linear)

def ReadsOperandAs : Prop := ∀ (level : Nat) (rest : List Token), tokens.length ≤ level →
  Avoids ['['] rest →
  ∃ read, read.StandsFor term ∧
    (grammar vars (level + 1)).operand (tokens ++ rest) = some (read, rest)

/-- Some tokens and weights behind them read as a product that stands for the weighted term. -/
def ReadsProductAs : Prop := ∀ (weights : List Int) (level : Nat) (rest : List Token),
  tokens.length ≤ level → Avoids ['[', '*', '/'] rest →
  ∃ read, read.StandsFor (term.weigh weights) ∧
    (grammar vars (level + 1)).product (tokens ++ (weightTokens weights ++ rest)) =
      some (read, rest)

/-- The same behind a factor. -/
def ReadsTimesAs : Prop :=
  ∀ (factor : Arith) (weights : List Int) (level : Nat) (rest : List Token),
  tokens.length ≤ level → Avoids ['[', '*', '/'] rest →
  ∃ read, read.StandsFor (.scaled factor (term.weigh weights)) ∧
    products vars level (.const factor)
      (.symbol '*' :: (tokens ++ (weightTokens weights ++ rest))) = some (read, rest)

def ReadsExprAs : Prop := ∀ (level : Nat) (rest : List Token), tokens.length ≤ level →
  Avoids ['[', '*', '/'] rest →
  ∃ read, read.Alike term ∧
    (grammar vars (level + 1)).expr (tokens ++ rest) = sums vars level read rest

/-- Behind a plus, a sum goes on over some tokens and adds the value of a term. -/
def ReadsSumAs : Prop := ∀ (left : Linear) (level : Nat) (rest : List Token),
    tokens.length ≤ level →
  Avoids ['[', '*', '/'] rest →
  ∃ read, read.Alike (.sum [left, term]) ∧
    sums vars level left (.symbol '+' :: (tokens ++ rest)) = sums vars level read rest

end Strengths

/-- How a term reads back at each strength of binding. -/
structure Linear.Reads (term : Linear) : Prop where
  expr : ReadsExprAs vars term.tokens term
  sum : ReadsSumAs vars term.tokens term
  product : term.isTight = true → ReadsProductAs vars term.operandTokens term
  times : term.isTight = true → ReadsTimesAs vars term.operandTokens term

variable {vars} {level : Nat} {tokens rest : List Token}

theorem avoids_weightTokens (weights : List Int) (hrest : Avoids ['['] rest) :
    Avoids ['['] (weightTokens weights ++ rest) := by
  cases weights with
  | nil => exact hrest
  | cons weight weights => exact avoids_symbol (by decide) _

/-- A product goes on over the weights behind it. -/
theorem products_weights (vars : List String) (level : Nat) (hrest : Avoids ['[', '*', '/'] rest)
    (weights : List Int) (left : Linear) : ∃ read, read.StandsFor (left.weigh weights) ∧
      products vars level left (weightTokens weights ++ rest) = some (read, rest) := by
  induction weights generalizing left with
  | nil => exact ⟨left, .refl left, products_stop (hrest.mono (by decide)) left⟩
  | cons weight weights ih =>
    obtain ⟨product, hproduct, hstands⟩ := Linear.productOf?_int left weight
    obtain ⟨read, hread, htokens⟩ := ih product
    have hstep : products vars level left (weightTokens (weight :: weights) ++ rest) =
        products vars level product (weightTokens weights ++ rest) := by
      simp only [weightTokens, List.flatMap_cons, List.cons_append, List.append_assoc]
      exact chain_step rfl (operand_int weight) (by simp) hproduct
    exact ⟨read, hread.trans (hstands.weigh weights), hstep.trans htokens⟩

section Strengths

variable {term : Linear}

theorem ReadsOperandAs.product (h : ReadsOperandAs vars tokens term) :
    ReadsProductAs vars tokens term := by
  intro weights level rest hlength hrest
  obtain ⟨first, hfirst, hoperand⟩ := h level (weightTokens weights ++ rest) hlength
    (avoids_weightTokens weights (hrest.mono (by decide)))
  obtain ⟨read, hread, htokens⟩ := products_weights vars level hrest weights first
  exact ⟨read, hread.trans (hfirst.weigh weights), (product_eq hoperand).trans htokens⟩

theorem ReadsOperandAs.times (h : ReadsOperandAs vars tokens term) :
    ReadsTimesAs vars tokens term := by
  intro factor weights level rest hlength hrest
  obtain ⟨right, hright, hoperand⟩ := h level (weightTokens weights ++ rest) hlength
    (avoids_weightTokens weights (hrest.mono (by decide)))
  obtain ⟨product, hproduct, hstands⟩ := Linear.productOf?_const factor right
  obtain ⟨read, hread, htokens⟩ := products_weights vars level hrest weights product
  have hstep : products vars level (.const factor)
      (.symbol '*' :: (tokens ++ (weightTokens weights ++ rest))) =
        products vars level product (weightTokens weights ++ rest) :=
    chain_step rfl hoperand (by simp) hproduct
  have hfactor := (hstands.trans (hright.scaled factor)).weigh weights
  exact ⟨read, hread.trans (hfactor.trans (Linear.weigh_scaled_standsFor factor term weights)),
    hstep.trans htokens⟩

theorem ReadsProductAs.whole (h : ReadsProductAs vars tokens term) (hlength : tokens.length ≤ level)
    (hrest : Avoids ['[', '*', '/'] rest) : ∃ read, read.StandsFor term ∧
      (grammar vars (level + 1)).product (tokens ++ rest) = some (read, rest) :=
  h [] level rest hlength hrest

theorem ReadsProductAs.expr (h : ReadsProductAs vars tokens term) :
    ReadsExprAs vars tokens term := by
  intro level rest hlength hrest
  obtain ⟨read, hread, hproduct⟩ := h.whole hlength hrest
  exact ⟨read, hread.alike, expr_eq hproduct⟩

theorem ReadsProductAs.sum (h : ReadsProductAs vars tokens term) : ReadsSumAs vars tokens term := by
  intro left level rest hlength hrest
  obtain ⟨read, hread, hproduct⟩ := h.whole hlength hrest
  have hsum : (sumOf left read).Alike (.sum [left, term]) := (Linear.alike_sumOf left read).trans
    (.sum (.cons (.refl left) (.cons hread.alike .nil)))
  exact ⟨sumOf left read, hsum, chain_step rfl hproduct (by simp) rfl⟩

theorem ReadsExprAs.whole (h : ReadsExprAs vars tokens term) (hlength : tokens.length < level)
    (hrest : Avoids ['[', '*', '/', '+', '-'] rest) :
    ∃ read, read.Alike term ∧ (grammar vars level).expr (tokens ++ rest) = some (read, rest) := by
  obtain ⟨level, rfl⟩ := Nat.exists_eq_add_one_of_ne_zero (Nat.ne_zero_of_lt hlength)
  obtain ⟨read, hread, hexpr⟩ := h level rest (Nat.le_of_lt_succ hlength) (hrest.mono (by decide))
  exact ⟨read, hread, hexpr.trans (sums_stop (hrest.mono (by decide)) read)⟩

/-- In parentheses, a sum or difference is an operand. -/
theorem ReadsExprAs.paren (h : ReadsExprAs vars tokens term) (hterm : term.isTerm = false) :
    ReadsOperandAs vars (parenTokens tokens) term := by
  intro level rest hlength _
  rw [length_parenTokens] at hlength
  have hlength : tokens.length < level := by omega
  obtain ⟨read, hread, hexpr⟩ := h.whole hlength (avoids_symbol (c := ')') (by decide) rest)
  exact ⟨read, ⟨hread, by simp [hterm]⟩, operand_parenTokens hexpr⟩

end Strengths

namespace Linear.Reads

variable {term a b : Linear}

theorem of_product (hloose : term.isLoose = false) (hproduct : ReadsProductAs vars term.tokens term)
    (htimes : ReadsTimesAs vars term.tokens term) : Linear.Reads vars term := by
  have htokens : term.operandTokens = term.tokens := if_neg (by simp [hloose])
  exact ⟨hproduct.expr, hproduct.sum, fun _ => htokens.symm ▸ hproduct,
    fun _ => htokens.symm ▸ htimes⟩

theorem of_operand (hloose : term.isLoose = false) (h : ReadsOperandAs vars term.tokens term) :
    Linear.Reads vars term :=
  of_product hloose h.product h.times

theorem of_expr (hloose : term.isLoose = true) (hterm : term.isTerm = false)
    (hexpr : ReadsExprAs vars term.tokens term) (hsum : ReadsSumAs vars term.tokens term) :
    Linear.Reads vars term := by
  have htokens : term.operandTokens = parenTokens term.tokens := if_pos hloose
  have hparen := hexpr.paren hterm
  exact ⟨hexpr, hsum, fun _ => htokens.symm ▸ hparen.product, fun _ => htokens.symm ▸ hparen.times⟩

theorem const {value : Arith} (h : Arith.Reads vars value) : Linear.Reads vars (.const value) := by
  have hexpr : ReadsExprAs vars value.tokens (.const value) := fun level rest hlength hrest =>
    ⟨.const value.asRead, alike_asRead value, h.expr level rest hlength hrest⟩
  have hsum : ReadsSumAs vars value.tokens (.const value) := fun left level rest hlength hrest =>
    ⟨left.sumWith value.asRead, (alike_sumWith value.asRead left).trans
      (.sum (.cons (.refl left) (.cons (alike_asRead value) .nil))),
      h.sum left level rest hlength hrest⟩
  have htight : (Linear.const value).isTight = true →
      encloseTokens 2 value.level value.tokens = value.tokens :=
    fun htight => if_neg (Nat.not_lt.mpr (of_decide_eq_true htight))
  refine ⟨hexpr, hsum, fun hlevel weights level rest hlength hrest => ?_,
    fun hlevel factor weights level rest hlength hrest => ?_⟩
  · have hproduct := h.product level (weightTokens weights ++ rest)
    rw [htight hlevel] at hproduct
    obtain ⟨read, hread, htokens⟩ := products_weights vars level hrest weights
      (.const value.asRead)
    have hstands : (Linear.const value.asRead).StandsFor (.const value) :=
      ⟨alike_asRead value, nofun⟩
    exact ⟨read, hread.trans (hstands.weigh weights), (hproduct hlength
      (avoids_weightTokens weights (hrest.mono (by decide)))).trans htokens⟩
  · have htimes := h.times factor level (weightTokens weights ++ rest)
    rw [htight hlevel] at htimes
    obtain ⟨read, hread, htokens⟩ := products_weights vars level hrest weights
      (.const (factor.times value.asRead))
    have hstands : (Linear.const (factor.times value.asRead)).StandsFor
        (.scaled factor (.const value)) := by
      refine ⟨fun env values => ?_, nofun⟩
      simp only [Linear.value?, Arith.value?_times, Arith.value?, value.value?_asRead env]
    exact ⟨read, hread.trans ((hstands.weigh weights).trans (weigh_scaled_standsFor _ _ _)),
      (htimes hlength (avoids_weightTokens weights (hrest.mono (by decide)))).trans htokens⟩

theorem var {name : String} {subscripts : List Arith} (hname : isName name = true)
    (hvars : subscripts = [] → name ∈ vars) (h : ∀ a ∈ subscripts, Arith.Reads vars a) :
    Linear.Reads vars (.var name subscripts) := by
  refine of_operand rfl fun level rest hlength hrest => ?_
  cases subscripts with
  | nil =>
    have hoperand : (grammar vars level).readOperand vars (.word name :: rest) = _ :=
      Grammar.readOperand_name hname rest
    rw [Grammar.reference_of_avoids hrest, if_pos (hvars rfl)] at hoperand
    exact ⟨_, .refl _, hoperand⟩
  | cons first subscripts =>
    have htokens :
        (Linear.var name (first :: subscripts)).tokens ++ rest = .word name :: .symbol '[' ::
        (joinTokens (.symbol ',')
          ((first :: subscripts).map Arith.tokens) ++ .symbol ']' :: rest) := by
      simp [Linear.tokens]
    have hlength :
        (joinTokens (.symbol ',') ((first :: subscripts).map Arith.tokens)).length < level := by
      simp only [Linear.tokens, List.length_append, List.length_cons] at hlength
      omega
    have hariths := ariths_eq (List.cons_ne_nil first subscripts) h hlength
      (avoids_symbol (c := ']') (by decide) rest) (by simp)
    have hoperand : (grammar vars level).readOperand vars (.word name :: .symbol '[' ::
        (joinTokens (.symbol ',')
          ((first :: subscripts).map Arith.tokens) ++ .symbol ']' :: rest)) = _ :=
      Grammar.readOperand_name hname _
    rw [htokens]
    exact ⟨_, ⟨alike_var name (first :: subscripts), fun _ => rfl⟩,
      hoperand.trans (mapped_eq (closing_eq hariths))⟩

theorem abs (h : Linear.Reads vars term) : Linear.Reads vars (.abs term) := by
  refine of_operand rfl fun level rest hlength _ => ?_
  have hlength : term.tokens.length < level := by
    simp only [Linear.tokens, List.length_append, List.length_cons] at hlength
    omega
  obtain ⟨read, hread, hexpr⟩ := h.expr.whole hlength (avoids_symbol (c := ')') (by decide) rest)
  have htokens : (Linear.abs term).tokens ++ rest =
      .word "vabs" :: .symbol '(' :: (term.tokens ++ .symbol ')' :: rest) := by
    simp [Linear.tokens]
  rw [htokens]
  exact ⟨.abs read, ⟨hread.abs, fun _ => rfl⟩, mapped_eq (enclosed_eq hexpr)⟩

theorem scaled {factor : Arith} (hfactor : Arith.Reads vars factor) (h : Linear.Reads vars term)
    (htight : term.isTight = true) : Linear.Reads vars (.scaled factor term) := by
  have htokens : ∀ rest, (Linear.scaled factor term).tokens ++ rest =
      encloseTokens 3 factor.level factor.tokens ++ .symbol '*' ::
        (term.operandTokens ++ rest) := by
    simp [Linear.tokens, Linear.operandTokens]
  have hlengths : ∀ {level}, (Linear.scaled factor term).tokens.length ≤ level →
      (encloseTokens 3 factor.level factor.tokens).length ≤ level ∧
        term.operandTokens.length ≤ level := by
    intro level hlength
    simp only [Linear.tokens, List.length_append] at hlength
    rw [Linear.operandTokens]
    omega
  refine of_product rfl ?_ ?_
  · intro weights level rest hlength hrest
    obtain ⟨hfirst, hsecond⟩ := hlengths hlength
    obtain ⟨read, hread, htimes⟩ := h.times htight factor.asRead weights level rest hsecond hrest
    have hstands : (Linear.scaled factor.asRead (term.weigh weights)).StandsFor
        (.scaled factor (term.weigh weights)) := ⟨alike_scaled factor _, id⟩
    rw [htokens, product_eq (hfactor.operand level _ hfirst (avoids_symbol (by decide) _))]
    exact ⟨read, hread.trans (hstands.trans (scaled_weigh_standsFor factor term weights)), htimes⟩
  · intro left weights level rest hlength hrest
    obtain ⟨hfirst, hsecond⟩ := hlengths hlength
    obtain ⟨read, hread, htimes⟩ :=
      h.times htight (.mul left factor.asRead) weights level rest hsecond hrest
    have hstep : products vars level (.const left) (.symbol '*' ::
        (encloseTokens 3 factor.level factor.tokens
          ++ .symbol '*' :: (term.operandTokens ++ (weightTokens weights ++ rest)))) =
        products vars level (.const (.mul left factor.asRead))
          (.symbol '*' :: (term.operandTokens ++ (weightTokens weights ++ rest))) :=
      chain_step rfl (hfactor.operand level _ hfirst (avoids_symbol (by decide) _)) (by simp) rfl
    have hstands : (Linear.scaled (.mul left factor.asRead) (term.weigh weights)).StandsFor
        (.scaled left (.scaled factor (term.weigh weights))) := by
      refine ⟨fun env values => ?_, id⟩
      simp only [Linear.value?, Arith.value?, factor.value?_asRead env]
      cases left.value? env <;> cases factor.value? env <;>
        cases (term.weigh weights).value? env values <;> simp [mul_assoc]
    have hinside := (scaled_weigh_standsFor factor term weights).scaled left
    rw [htokens, hstep]
    exact ⟨read, hread.trans (hstands.trans hinside), htimes⟩

theorem weighted {weight : Int} (h : Linear.Reads vars term) (htight : term.isTight = true) :
    Linear.Reads vars (.weighted term weight) := by
  have htokens : ∀ weights rest,
      (Linear.weighted term weight).tokens ++ (weightTokens weights ++ rest) =
      term.operandTokens ++ (weightTokens (weight :: weights) ++ rest) := by
    simp [Linear.tokens, Linear.operandTokens, weightTokens]
  have hlength : ∀ {level}, (Linear.weighted term weight).tokens.length ≤ level →
      term.operandTokens.length ≤ level := by
    intro level hlength
    simp only [Linear.tokens, List.length_append] at hlength
    rw [Linear.operandTokens]
    omega
  refine of_product rfl ?_ ?_
  · intro weights level rest hle hrest
    rw [htokens]
    exact h.product htight (weight :: weights) level rest (hlength hle) hrest
  · intro factor weights level rest hle hrest
    rw [htokens]
    exact h.times htight factor (weight :: weights) level rest (hlength hle) hrest

/-- The weights behind a sum over an index are read as part of its body. -/
theorem operand_sumOver {index : Index} {body : Linear} (hindex : Index.Reads vars index)
    (h : Linear.Reads vars body) (htight : body.isTight = true) (weights : List Int)
    (hlength : (Linear.sumOver index body).tokens.length ≤ level)
    (hrest : Avoids ['[', '*', '/'] rest) :
    ∃ read, read.StandsFor ((Linear.sumOver index body).weigh weights) ∧
      (grammar vars (level + 1)).operand
        ((Linear.sumOver index body).tokens ++ (weightTokens weights ++ rest)) =
          some (read, rest) := by
  have htokens :
      (Linear.sumOver index body).tokens ++ (weightTokens weights ++ rest) = .word "sum" ::
      (index.tokens ++ .symbol ':' :: (body.operandTokens ++ (weightTokens weights ++ rest))) := by
    simp [Linear.tokens, Linear.operandTokens]
  have hlengths : index.tokens.length < level ∧ body.operandTokens.length < level := by
    simp only [Linear.tokens, List.length_append, List.length_cons] at hlength
    rw [Linear.operandTokens]
    omega
  obtain ⟨level, rfl⟩ := Nat.exists_eq_add_one_of_ne_zero (Nat.ne_zero_of_lt hlengths.1)
  have hhead :=
    hindex (level + 1) (body.operandTokens ++ (weightTokens weights ++ rest)) hlengths.1 ':'
    (by decide)
  obtain ⟨read, hread, hbody⟩ :=
    h.product htight weights level rest (Nat.le_of_lt_succ hlengths.2) hrest
  have hstands : (Linear.sumOver index.asRead read).StandsFor
      (.sumOver index (body.weigh weights)) :=
    ⟨(alike_sumOver index read).trans (hread.alike.sumOver index), fun _ => rfl⟩
  have hoperand : (grammar vars (level + 1)).sumOver (index.tokens ++ .symbol ':' ::
      (body.operandTokens ++ (weightTokens weights ++ rest))) =
        some (.sumOver index.asRead read, rest) := by
    simp [Grammar.sumOver, hhead, mapped, hbody]
  rw [htokens]
  exact ⟨_, hstands.trans (weigh_sumOver index body weights), hoperand⟩

theorem sumOver {index : Index} {body : Linear} (hindex : Index.Reads vars index)
    (h : Linear.Reads vars body) (htight : body.isTight = true) :
    Linear.Reads vars (.sumOver index body) := by
  refine of_product rfl ?_ ?_
  · intro weights level rest hlength hrest
    obtain ⟨read, hread, hoperand⟩ := operand_sumOver hindex h htight weights hlength hrest
    exact ⟨read, hread, (product_eq hoperand).trans (products_stop (hrest.mono (by decide)) read)⟩
  · intro factor weights level rest hlength hrest
    obtain ⟨right, hright, hoperand⟩ := operand_sumOver hindex h htight weights hlength hrest
    obtain ⟨read, hread, hstands⟩ := productOf?_const factor right
    have hstep : products vars level (.const factor) (.symbol '*' ::
        ((Linear.sumOver index body).tokens ++ (weightTokens weights ++ rest))) =
          products vars level read rest :=
      chain_step rfl hoperand (by simp; omega) hread
    exact ⟨read, hstands.trans (hright.scaled factor),
      hstep.trans (products_stop (hrest.mono (by decide)) read)⟩

theorem diff (ha : Linear.Reads vars a) (hb : Linear.Reads vars b) (htight : b.isTight = true) :
    Linear.Reads vars (.diff a b) := by
  have htokens : ∀ rest, (Linear.diff a b).tokens ++ rest =
      a.tokens ++ .symbol '-' :: (b.operandTokens ++ rest) := by
    simp [Linear.tokens, Linear.operandTokens]
  have hlengths : ∀ {level}, (Linear.diff a b).tokens.length ≤ level →
      a.tokens.length ≤ level ∧ b.operandTokens.length ≤ level := by
    intro level hlength
    simp only [Linear.tokens, List.length_append] at hlength
    rw [Linear.operandTokens]
    omega
  have hminus : ∀ (left : Linear) (level : Nat) (rest : List Token),
      b.operandTokens.length ≤ level →
      Avoids ['[', '*', '/'] rest → ∃ read, read.Alike (.diff left b) ∧
        sums vars level left (.symbol '-' :: (b.operandTokens ++ rest)) =
          sums vars level read rest := by
    intro left level rest hlength hrest
    obtain ⟨right, hright, hproduct⟩ := (hb.product htight).whole hlength hrest
    exact ⟨differenceOf left right, (alike_differenceOf left right).trans
      ((Alike.refl left).diff hright.alike), chain_step rfl hproduct (by simp) rfl⟩
  refine of_expr rfl rfl ?_ ?_
  · intro level rest hlength hrest
    obtain ⟨hfirst, hsecond⟩ := hlengths hlength
    obtain ⟨first, hfirstRead, hexpr⟩ :=
      ha.expr level (.symbol '-' :: (b.operandTokens ++ rest)) hfirst (avoids_symbol (by decide) _)
    obtain ⟨read, hread, hsums⟩ := hminus first level rest hsecond hrest
    rw [htokens]
    exact ⟨read, hread.trans (hfirstRead.diff (.refl b)), hexpr.trans hsums⟩
  · intro left level rest hlength hrest
    obtain ⟨hfirst, hsecond⟩ := hlengths hlength
    obtain ⟨first, hfirstRead, hexpr⟩ :=
      ha.sum left level (.symbol '-' :: (b.operandTokens ++ rest))
      hfirst (avoids_symbol (by decide) _)
    obtain ⟨read, hread, hsums⟩ := hminus first level rest hsecond hrest
    have hassoc : (Linear.diff (.sum [left, a]) b).Alike (.sum [left, .diff a b]) := by
      intro env values
      simp only [Linear.value?, Linear.sumOf?]
      cases left.value? env values <;> cases a.value? env values <;> cases b.value? env values <;>
        simp [add_sub_assoc]
    rw [htokens]
    exact ⟨read, (hread.trans (hfirstRead.diff (.refl b))).trans hassoc, hexpr.trans hsums⟩

/-- A sum goes on over some terms with a plus before each. -/
theorem sums_terms {terms : List Linear} (h : ∀ term ∈ terms, Linear.Reads vars term)
    (hlength : ∀ term ∈ terms, term.tokens.length ≤ level) (hrest : Avoids ['[', '*', '/'] rest)
    (left : Linear) : ∃ read, read.Alike (.sum (left :: terms)) ∧
      sums vars level left ((terms.map Linear.tokens).flatMap (.symbol '+' :: ·) ++ rest) =
        sums vars level read rest := by
  induction terms generalizing left with
  | nil =>
    refine ⟨left, fun env values => ?_, rfl⟩
    rw [value?, sumOf?_singleton]
  | cons first terms ih =>
    obtain ⟨hfirst, hterms⟩ := List.forall_mem_cons.mp h
    obtain ⟨hle, hles⟩ := List.forall_mem_cons.mp hlength
    have hbehind : Avoids ['[', '*', '/']
        ((terms.map Linear.tokens).flatMap (.symbol '+' :: ·) ++ rest) := by
      cases terms with
      | nil => exact hrest
      | cons second terms => exact avoids_symbol (by decide) _
    obtain ⟨joined, hjoined, hsum⟩ := hfirst.sum left level _ hle hbehind
    obtain ⟨read, hread, hsums⟩ := ih hterms hles joined
    have hassoc : (Linear.sum (joined :: terms)).Alike (.sum (left :: first :: terms)) := by
      intro env values
      simp only [value?, Linear.sumOf?, hjoined env values]
      cases left.value? env values <;> cases first.value? env values <;>
        cases Linear.sumOf? env values terms <;> simp [add_assoc]
    refine ⟨read, hread.trans hassoc, ?_⟩
    rw [List.map_cons, List.flatMap_cons, List.cons_append, List.cons_append, List.append_assoc,
      hsum, hsums]

theorem terms {terms : List Linear} (hne : terms ≠ [])
    (h : ∀ term ∈ terms, Linear.Reads vars term) : Linear.Reads vars (.sum terms) := by
  obtain ⟨first, others, rfl⟩ := List.exists_cons_of_ne_nil hne
  obtain ⟨hfirst, hothers⟩ := List.forall_mem_cons.mp h
  have htokens : ∀ rest, (Linear.sum (first :: others)).tokens ++ rest =
      first.tokens ++ ((others.map Linear.tokens).flatMap (.symbol '+' :: ·) ++ rest) := by
    intro rest
    rw [Linear.tokens, Linear.tokensAll_eq_map, List.map_cons, joinTokens_cons, List.append_assoc]
  have hlengths : ∀ {level}, (Linear.sum (first :: others)).tokens.length ≤ level →
      ∀ term ∈ first :: others, term.tokens.length ≤ level := by
    intro level hlength term hterm
    rw [Linear.tokens, Linear.tokensAll_eq_map] at hlength
    exact (length_le_joinTokens (List.mem_map_of_mem (f := Linear.tokens) hterm) _).trans hlength
  refine of_expr rfl rfl ?_ ?_
  · intro level rest hlength hrest
    obtain ⟨hle, hles⟩ := List.forall_mem_cons.mp (hlengths hlength)
    have hbehind : Avoids ['[', '*', '/']
        ((others.map Linear.tokens).flatMap (.symbol '+' :: ·) ++ rest) := by
      cases others with
      | nil => exact hrest
      | cons second others => exact avoids_symbol (by decide) _
    obtain ⟨left, hleft, hexpr⟩ := hfirst.expr level _ hle hbehind
    obtain ⟨read, hread, hsums⟩ := sums_terms hothers hles hrest left
    rw [htokens]
    exact ⟨read, hread.trans (.sum (.cons hleft (List.forall₂_same.mpr fun _ _ => .refl _))),
      hexpr.trans hsums⟩
  · intro left level rest hlength hrest
    obtain ⟨read, hread, hsums⟩ := sums_terms h (hlengths hlength) hrest left
    have hassoc :
        (Linear.sum (left :: first :: others)).Alike (.sum [left, .sum (first :: others)]) := by
      intro env values
      simp only [value?, Linear.sumOf?]
      cases left.value? env values <;> cases first.value? env values <;>
        cases Linear.sumOf? env values others <;> simp
    refine ⟨read, hread.trans hassoc, ?_⟩
    rw [htokens, ← hsums, List.map_cons, List.flatMap_cons, List.cons_append, List.cons_append,
      List.append_assoc]

end Linear.Reads

mutual

/-- Legible terms read back. -/
theorem Linear.reads : (term : Linear) → term.legible vars = true → Linear.Reads vars term
  | .const value, h => .const (value.reads h)
  | .var name subscripts, h => by
    rw [Linear.legible, Bool.and_eq_true, Bool.and_eq_true] at h
    refine .var h.1.1 (fun hnone => by simpa [hnone] using h.1.2) fun a ha => ?_
    exact a.reads (List.all_eq_true.mp h.2 a ha)
  | .sum terms, h => by
    rw [Linear.legible, Bool.and_eq_true] at h
    exact .terms (by simpa using h.1) (Linear.readsAll terms h.2)
  | .diff a b, h => by
    rw [Linear.legible, Bool.and_eq_true, Bool.and_eq_true] at h
    exact (a.reads h.1.1).diff (b.reads h.1.2) h.2
  | .scaled factor term, h => by
    rw [Linear.legible, Bool.and_eq_true, Bool.and_eq_true] at h
    exact .scaled (factor.reads h.1.1) (term.reads h.1.2) h.2
  | .weighted term _, h => by
    rw [Linear.legible, Bool.and_eq_true] at h
    exact (term.reads h.1).weighted h.2
  | .sumOver index body, h => by
    rw [Linear.legible, Bool.and_eq_true, Bool.and_eq_true] at h
    exact .sumOver (index.reads h.1.1) (body.reads h.1.2) h.2
  | .abs term, h => by
    rw [Linear.legible] at h
    exact (term.reads h).abs

theorem Linear.readsAll : (terms : List Linear) → Linear.allLegible vars terms = true →
    ∀ term ∈ terms, Linear.Reads vars term
  | [], _, _, hmem => nomatch hmem
  | first :: terms, h, term, hmem => by
    rw [Linear.allLegible, Bool.and_eq_true] at h
    rcases List.mem_cons.mp hmem with heq | hmem
    · exact heq ▸ first.reads h.1
    · exact Linear.readsAll terms h.2 term hmem

end

end Reads

end RoundRobin.Zimpl
