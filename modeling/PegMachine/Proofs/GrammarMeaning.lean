import PegMachine.Proofs.Meaning

/-!
# What the rules of a grammar mean

The rules of a grammar refer to each other by name.  A rule means what its pattern means when each
name means what the rule of that name does; and of all meanings for the names of which this is true,
the rules have the least: what is so for every such meaning is so for that of the rules
(`eval_rule_le`).  Both together determine the meaning of the rules, from the meanings of their
patterns alone: it does not matter what the patterns look like.

* `eval_rule` — the meaning of a rule is that of its pattern.
* `eval_rule_le` — it is the least.
* `meaning_grammar` — a grammar means what its first rule does.
* `meaning_grammar_congr` — grammars of patterns that mean the same mean the same.
-/

set_option autoImplicit false

namespace PegMachine

open PegMachine.Expr

variable {α : Type}

namespace Pattern

/-- Patterns with names, as they become the rules of a grammar. -/
abbrev Named (α : Type) : Type := List (String × Pattern α)

/-- The rules of the grammar, with all calls bound. -/
def boundRules (rules : Named α) : List (Rule α) :=
  rules.map fun r => ⟨r.1, r.2.boundTo (rules.map (·.1))⟩

/-- What the rule of the name means in the grammar. -/
def ownMeaning (S : Setting α) (rules : Named α) (name : String) : Meaning α :=
  Eval S (boundRules rules) (.ruleCall ((rules.map (·.1)).idxOf name))

/-- The rules refer to each other only, and no calls in them are open but for their references. -/
structure Closed (rules : Named α) : Prop where
  closed : ∀ r ∈ rules, r.2.root.inScope True 0
  named : ∀ r ∈ rules, ∀ i ∈ r.2.root.openCalls, r.2.nameAt i ∈ rules.map (·.1)

variable {S : Setting α} {rules : Named α}

/-- What names mean matters only for those that the pattern refers to. -/
theorem meaning_congr {p : Pattern α} (hp : p.root.inScope True 0)
    {named named' : String → Meaning α}
    (h : ∀ i ∈ p.root.openCalls, named (p.nameAt i) = named' (p.nameAt i)) :
    p.meaning S named = p.meaning S named' :=
  eval_opening_congr hp h

theorem meaning_opening (opened : Nat → Meaning α) (named : String → Meaning α) (p : Pattern α) :
    p.meaning (S.opening opened) named = p.meaning S named := rfl

/-- What a grammar is made of. -/
theorem of_grammar {g : Pattern α} (hg : grammar rules = .ok g)
    (hr : ∀ r ∈ rules, r.2.root.inScope True 0) :
    g = ⟨.grammar (boundRules rules), []⟩ ∧ Closed rules ∧ rules ≠ [] := by
  obtain ⟨e, he, hg⟩ := bind_eq_ok hg
  cases hg
  obtain ⟨bound, hmade, rfl⟩ := exists_made_of_ofRules he
  have hresolved := hmade.resolved
  rw [map_fst_eq, resolveRules_eq] at hresolved
  split at hresolved
  · cases hresolved
  · next hnone =>
    cases hresolved
    refine ⟨rfl, ⟨hr, fun r hmem i hi => ?_⟩, fun hnil => hmade.ne_nil (by rw [hnil]; rfl)⟩
    have hall := List.find?_eq_none.1 hnone (r.2.nameAt i)
      (List.mem_flatMap.2 ⟨r, hmem, List.mem_map.2 ⟨i, hi, rfl⟩⟩)
    simpa using hall

theorem getElem?_boundRules {i : Nat} {r : String × Pattern α} (hr : rules[i]? = some r) :
    (boundRules rules)[i]? = some ⟨r.1, r.2.boundTo (rules.map (·.1))⟩ := by
  rw [boundRules, List.getElem?_map, hr]
  rfl

theorem inScope_boundTo {names : List String} {p : Pattern α} (hp : p.root.inScope True 0)
    (hnames : ∀ i ∈ p.root.openCalls, p.nameAt i ∈ names) :
    (p.boundTo names).inScope False names.length :=
  ((chains_inScope False names.length).rightNest _).mpr
    (inScope_substCalls hp fun i hi => List.idxOf_lt_length_iff.2 (hnames i hi))

theorem Closed.inScope (h : Closed rules) :
    inScopeRules (boundRules rules).length (boundRules rules) := by
  refine inScopeRules_iff.2 fun r hr => ?_
  obtain ⟨named, hmem, rfl⟩ := List.mem_map.1 hr
  have hscope := inScope_boundTo (h.closed named hmem) (h.named named hmem)
  have hlen : (boundRules rules).length = (rules.map (·.1)).length := by
    rw [boundRules, List.length_map, List.length_map]
  rwa [hlen]

/-- Bound to the rules of a grammar, a pattern means what it does when its names mean what the rules
do. -/
theorem eval_boundTo (bound : List (Rule α)) (names : List String) {p : Pattern α}
    (hp : p.root.inScope True 0) :
    Eval S bound (p.boundTo names)
      = p.meaning S fun name => Eval S bound (.ruleCall (names.idxOf name)) := by
  rw [boundTo, (chains_eval S bound).rightNest]
  exact eval_substCalls hp fun _ _ => rfl

/-- Resolved on its own, a pattern means what it did before. -/
theorem eval_of_resolve {p : Pattern α} {root : Expr α} (hp : p.root.inScope True 0)
    (hroot : p.root.resolve p.refs [] = .ok root) (named : String → Meaning α) :
    Eval S [] root = p.meaning S named := by
  obtain ⟨hnames, rfl⟩ := of_resolve hroot
  refine (eval_boundTo (S := S) [] [] hp).trans (meaning_congr hp fun i hi => ?_)
  cases hnames i hi

/-- **A rule means what its pattern does.** -/
theorem eval_rule (h : Closed rules) {i : Nat} {r : String × Pattern α}
    (hr : rules[i]? = some r) :
    Eval S (boundRules rules) (.ruleCall i) = r.2.meaning S (ownMeaning S rules) := by
  rw [eval_ruleCall _ _ (getElem?_boundRules hr)]
  exact eval_boundTo _ _ (h.closed r (List.mem_of_getElem? hr))

/-! ## The least meaning -/

/-- Rules of which rule `i` means what open call `i` does. -/
def openRules (n : Nat) : List (Rule α) := (List.range n).map fun i => ⟨"", .openCall i⟩

theorem getElem?_openRules {n i : Nat} (hi : i < n) :
    (openRules n : List (Rule α))[i]? = some ⟨"", .openCall i⟩ := by
  rw [openRules, List.getElem?_map, List.getElem?_range hi]
  rfl

theorem eval_openRules {n i : Nat} (hi : i < n) (m : Nat → Meaning α) :
    Eval (S.opening m) (openRules n) (.ruleCall i) = m i := by
  rw [eval_ruleCall _ _ (getElem?_openRules hi), eval_openCall]
  rfl

/-- What comes out among the rules of a grammar comes out also when calls of rules mean what `m`
says, if that is at least what the rules make of it. -/
theorem eval_of_least {m : Nat → Meaning α} (h : Closed rules)
    (hm : ∀ i r, rules[i]? = some r → ∀ pos t res,
      r.2.meaning S (fun name => m ((rules.map (·.1)).idxOf name)) pos t res → m i pos t res)
    {e : Expr α} {pos : Nat} {t : List (Firing α)} {res : Result α}
    (hev : Eval S (boundRules rules) e pos t res) (he : e.inScope False rules.length) :
    Eval (S.opening m) (openRules rules.length) e pos t res := by
  generalize hb : boundRules rules = bound at hev
  induction hev with
  | class_ok hs hc hin => exact .class_ok hs hc hin
  | class_fail hs hout => exact .class_fail hs hout
  | empty => exact .empty
  | fail => exact .fail
  | seq_ok _ _ ih₁ ih₂ => exact .seq_ok (ih₁ he.1 hb) (ih₂ he.2 hb)
  | seq_fail_first _ ih => exact .seq_fail_first (ih he.1 hb)
  | seq_fail_second _ _ ih₁ ih₂ => exact .seq_fail_second (ih₁ he.1 hb) (ih₂ he.2 hb)
  | choice_first _ ih => exact .choice_first (ih he.1 hb)
  | choice_second _ _ ih₁ ih₂ => exact .choice_second (ih₁ he.1 hb) (ih₂ he.2 hb)
  | star_done _ ih => exact .star_done (ih he hb)
  | star_more _ _ ih₁ ih₂ => exact .star_more (ih₁ he hb) (ih₂ he hb)
  | not_ok _ ih => exact .not_ok (ih he hb)
  | not_fail _ ih => exact .not_fail (ih he hb)
  | and_ok _ ih => exact .and_ok (ih he hb)
  | and_fail _ ih => exact .and_fail (ih he hb)
  | behind hwidth _ ih => exact .behind hwidth (ih he hb)
  | behind_short hshort => exact .behind_short hshort
  | action_ok _ hanswer hmid hstop ih => exact .action_ok (ih he hb) hanswer hmid hstop
  | action_refused _ hanswer ih => exact .action_refused (ih he hb) hanswer
  | action_fail _ ih => exact .action_fail (ih he hb)
  | openCall => exact he.elim
  | @ruleCall _ i rule pos t res hrule _ ih =>
    subst hb
    obtain ⟨r, hr⟩ : ∃ r, rules[i]? = some r := ⟨_, List.getElem?_eq_getElem he⟩
    rw [getElem?_boundRules hr] at hrule
    cases hrule
    have hmem := List.mem_of_getElem? hr
    have hscope := inScope_boundTo (h.closed r hmem) (h.named r hmem)
    rw [List.length_map] at hscope
    have hbody := ih hscope rfl
    rw [eval_boundTo _ _ (h.closed r hmem)] at hbody
    have hcalls : r.2.meaning (S.opening m) (fun name => Eval (S.opening m)
          (openRules rules.length) (.ruleCall ((rules.map (·.1)).idxOf name)))
        = r.2.meaning S fun name => m ((rules.map (·.1)).idxOf name) := by
      rw [meaning_opening]
      refine meaning_congr (h.closed r hmem) fun j hj => eval_openRules ?_ m
      have hlt := List.idxOf_lt_length_iff.2 (h.named r hmem j hj)
      rwa [List.length_map] at hlt
    rw [hcalls] at hbody
    exact .ruleCall (getElem?_openRules he) (.openCall (hm i r hr _ _ _ hbody))
  | grammar hentry hev _ =>
    exact .grammar hentry
      (hev.of_closed (inScopeRules_iff.1 he.2 _ (List.mem_of_getElem? hentry)) he.2 m)

/-- **The rules have the least meaning** of all with which they mean at most what their patterns do.
-/
theorem eval_rule_le (h : Closed rules) {m : Nat → Meaning α}
    (hm : ∀ i r, rules[i]? = some r → ∀ pos t res,
      r.2.meaning S (fun name => m ((rules.map (·.1)).idxOf name)) pos t res → m i pos t res)
    {i : Nat} (hi : i < rules.length) {pos : Nat} {t : List (Firing α)} {res : Result α}
    (hev : Eval S (boundRules rules) (.ruleCall i) pos t res) : m i pos t res := by
  have hleast := eval_of_least h hm hev hi
  rwa [eval_openRules hi] at hleast

/-- A grammar means what its first rule does. -/
theorem meaning_grammar {first : String × Pattern α} {rest : Named α} {g : Pattern α}
    (hg : grammar (first :: rest) = .ok g) (hr : ∀ r ∈ first :: rest, r.2.root.inScope True 0)
    (named : String → Meaning α) :
    g.meaning S named = first.2.meaning S (ownMeaning S (first :: rest)) := by
  obtain ⟨rfl, hclosed, -⟩ := of_grammar hg hr
  have hfirst : (boundRules (first :: rest))[0]? = some
      ⟨first.1, first.2.boundTo ((first :: rest).map (·.1))⟩ := getElem?_boundRules rfl
  have hscope := inScopeRules_iff.1 hclosed.inScope _ (List.mem_of_getElem? hfirst)
  rw [meaning, eval_grammar _ _ hfirst, eval_closed hscope hclosed.inScope]
  exact eval_boundTo _ _ (hr first List.mem_cons_self)

/-! ## Grammars of patterns that mean the same -/

/-- The rules of a grammar are at most what they are in a grammar of patterns with the same names
that mean the same. -/
theorem eval_rule_le_of_meaning {rules rules' : Named α} (h : Closed rules) (h' : Closed rules')
    (hnames : rules.map (·.1) = rules'.map (·.1))
    (hmeaning : ∀ (i : Nat) r r', rules[i]? = some r → rules'[i]? = some r' →
      ∀ named, r.2.meaning S named = r'.2.meaning S named)
    {i : Nat} (hi : i < rules.length) {pos : Nat} {t : List (Firing α)} {res : Result α}
    (hev : Eval S (boundRules rules) (.ruleCall i) pos t res) :
    Eval S (boundRules rules') (.ruleCall i) pos t res := by
  have hlen : rules'.length = rules.length := by
    have := congrArg List.length hnames
    rwa [List.length_map, List.length_map, eq_comm] at this
  refine eval_rule_le h (m := fun i => Eval S (boundRules rules') (.ruleCall i)) ?_ hi hev
  intro j r hr pos t res hpat
  obtain ⟨hj, -⟩ := List.getElem?_eq_some_iff.1 hr
  obtain ⟨r', hr'⟩ : ∃ r', rules'[j]? = some r' :=
    ⟨_, List.getElem?_eq_getElem (hlen ▸ hj)⟩
  rw [hmeaning j r r' hr hr', hnames] at hpat
  exact (eval_rule h' hr').symm ▸ hpat

/-- **Grammars of patterns that mean the same mean the same.** -/
theorem meaning_grammar_congr {rules rules' : Named α} {g g' : Pattern α}
    (hg : grammar rules = .ok g) (hg' : grammar rules' = .ok g')
    (hr : ∀ r ∈ rules, r.2.root.inScope True 0) (hr' : ∀ r ∈ rules', r.2.root.inScope True 0)
    (hnames : rules.map (·.1) = rules'.map (·.1))
    (hmeaning : ∀ (i : Nat) r r', rules[i]? = some r → rules'[i]? = some r' →
      ∀ named, r.2.meaning S named = r'.2.meaning S named) (named : String → Meaning α) :
    g.meaning S named = g'.meaning S named := by
  obtain ⟨-, hclosed, hne⟩ := of_grammar hg hr
  obtain ⟨-, hclosed', hne'⟩ := of_grammar hg' hr'
  have hlen : rules.length = rules'.length := by
    have := congrArg List.length hnames
    rwa [List.length_map, List.length_map] at this
  have hrule : ∀ i < rules.length, Eval S (boundRules rules) (.ruleCall i)
      = Eval S (boundRules rules') (.ruleCall i) := fun i hi =>
    Meaning.eq_of_iff fun pos t res =>
      ⟨eval_rule_le_of_meaning hclosed hclosed' hnames hmeaning hi,
        eval_rule_le_of_meaning hclosed' hclosed hnames.symm
          (fun i r r' h h' named => (hmeaning i r' r h' h named).symm) (hlen ▸ hi)⟩
  cases rules with
  | nil => exact absurd rfl hne
  | cons first rest =>
    cases rules' with
    | nil => exact absurd rfl hne'
    | cons first' rest' =>
      have hfirst := List.mem_cons_self (a := first) (l := rest)
      rw [meaning_grammar hg hr, meaning_grammar hg' hr', ← hmeaning 0 first first' rfl rfl]
      refine meaning_congr (hr first hfirst) fun i hi => ?_
      have hlt := List.idxOf_lt_length_iff.2 (hclosed.named first hfirst i hi)
      rw [List.length_map] at hlt
      rw [ownMeaning, ownMeaning, hrule _ hlt, hnames]

end Pattern
end PegMachine
