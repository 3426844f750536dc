import CssWorkbench.Analysis.Diagnostic
import CssWorkbench.Proofs.Tree.BlockEnds
import Mathlib

/-!
# What is found wrong with declarations

The check of a ruleset goes over its declarations once and keeps the names that it has seen. What
it finds wrong with a declaration depends on that declaration and on those in front of it in the
same block only, and the findings of a tree are those of all its blocks.
-/

namespace CssWorkbench

/-- Whether a declaration sets what an earlier one sets. -/
def Declaration.repeats (earlier : List Declaration) (d : Declaration) : Bool :=
  earlier.any fun e => Text.sameIgnoringCase e.name d.name

/-- What is found wrong with a declaration, which may repeat an earlier one. -/
def Declaration.findings (repeated : Bool) (d : Declaration) : List Diagnostic :=
  if d.isCustom then []
  else (if Knowledge.knowsProperty d.name then []
      else [⟨.unknownProperty d.name, d.property.span⟩]) ++
    if repeated then [⟨.duplicateProperty d.name, d.span⟩] else []

/-- A declaration that stands right in the block of a ruleset, behind the `earlier` ones there. -/
def SetBehind (nodes : List Node) (earlier : List Declaration) (d : Declaration) : Prop :=
  ∃ rule children later, Below (.ruleset rule children) nodes ∧
    declarationsIn children = earlier ++ d :: later

/-- The names seen are those of the declarations before, custom properties aside. -/
def SeenOf (seen : List String) (before : List Declaration) : Prop :=
  ∀ d : Declaration, d.isCustom = false → seen.contains (Text.lower d.name) = d.repeats before

/-- Whether a finding is about a declaration. -/
def Finding.isOnDeclaration : Finding → Bool
  | .unknownProperty _ | .duplicateProperty _ => true
  | .unknownAtRule _ | .emptyRuleset | .syntaxFault _ => false

variable {f : Diagnostic} {d e : Declaration} {before : List Declaration} {seen : List String}
  {nodes : List Node}

/-- Lowering a letter neither makes nor removes a hyphen. -/
theorem toLower_eq_hyphen_iff {c : Char} : c.toLower = '-' ↔ c = '-' := by
  constructor
  · intro h
    have hletter : c.isAlpha = false := by
      rw [← Char.isAlpha_toLower_eq_isAlpha, h]
      rfl
    rw [Char.isAlpha, Bool.or_eq_false_iff] at hletter
    rwa [Char.toLower_eq_of_not_isUpper (by simp [hletter.1])] at h
  · rintro rfl
    rfl

/-- Whether a property is custom can be told from its name in small letters. -/
theorem Declaration.isCustom_iff_lower (d : Declaration) :
    d.isCustom = ['-', '-'].isPrefixOf (Text.lower d.name).toList := by
  have hhyphen : ∀ c : Char, ('-' == c.toLower) = ('-' == c) := fun c => by
    rw [Bool.eq_iff_iff, beq_iff_eq, beq_iff_eq, eq_comm, toLower_eq_hyphen_iff, eq_comm]
  rw [Text.lower, String.toList_ofList, Declaration.isCustom, Token.isCustomName, Declaration.name]
  rcases d.property.value.toList with _ | ⟨a, _ | ⟨b, cs⟩⟩ <;>
    simp only [List.map, List.isPrefixOf, hhyphen]

/-- A declaration repeats some others if it repeats those in front or the last one. -/
theorem Declaration.repeats_concat (d e : Declaration) (before : List Declaration) :
    d.repeats (before ++ [e]) = (d.repeats before || Text.sameIgnoringCase e.name d.name) := by
  simp [Declaration.repeats]

/-- Nothing was seen at first. -/
theorem seenOf_nil : SeenOf [] [] := fun _ _ => rfl

/-- A custom property is passed over. -/
theorem SeenOf.custom (h : SeenOf seen before) (custom : e.isCustom = true) :
    SeenOf seen (before ++ [e]) := by
  intro d hd
  have hother : Text.sameIgnoringCase e.name d.name = false := by
    rw [Bool.eq_false_iff, ne_eq, Text.sameIgnoringCase_iff]
    intro hsame
    rw [e.isCustom_iff_lower, hsame, ← d.isCustom_iff_lower, hd] at custom
    cases custom
  rw [h d hd, d.repeats_concat, hother, Bool.or_false]

/-- The name of any other property is seen from there on. -/
theorem SeenOf.concat (h : SeenOf seen before) (e : Declaration) :
    SeenOf (Text.lower e.name :: seen) (before ++ [e]) := by
  intro d hd
  rw [List.contains_cons, h d hd, d.repeats_concat, Bool.or_comm]
  congr 1
  rw [Bool.eq_iff_iff, beq_iff_eq, Text.sameIgnoringCase_iff, eq_comm]

/-- A declaration of a list is the first one, with nothing in front of it, or one of the others,
with the first one in front. -/
theorem exists_split_cons_iff {P : List Declaration → Declaration → Prop}
    {ds : List Declaration} :
    (∃ earlier d later, e :: ds = earlier ++ d :: later ∧ P earlier d) ↔
      P [] e ∨ ∃ earlier d later, ds = earlier ++ d :: later ∧ P (e :: earlier) d := by
  constructor
  · rintro ⟨earlier, d, later, hsplit, h⟩
    rcases List.cons_eq_append_iff.mp hsplit with ⟨rfl, hcons⟩ | ⟨earlier, rfl, hds⟩
    · obtain ⟨rfl, -⟩ := List.cons.inj hcons
      exact .inl h
    · exact .inr ⟨earlier, d, later, hds, h⟩
  · rintro (h | ⟨earlier, d, later, rfl, h⟩)
    · exact ⟨[], e, ds, rfl, h⟩
    · exact ⟨e :: earlier, d, later, rfl, h⟩

/-- The check of a ruleset finds what is wrong with each declaration behind those in front. -/
theorem mem_lintDeclarations_iff (h : SeenOf seen before) {ds : List Declaration} :
    f ∈ lintDeclarations seen ds ↔
      ∃ earlier d later, ds = earlier ++ d :: later ∧
        f ∈ d.findings (d.repeats (before ++ earlier)) := by
  induction ds generalizing seen before with
  | nil => simp [lintDeclarations]
  | cons e ds ih =>
    rw [exists_split_cons_iff
        (P := fun earlier d => f ∈ d.findings (d.repeats (before ++ earlier))),
      List.append_nil, lintDeclarations]
    by_cases custom : e.isCustom = true
    · have hrest := ih (h.custom custom)
      simp only [List.append_assoc, List.singleton_append] at hrest
      rw [if_pos custom, hrest, Declaration.findings, if_pos custom]
      simp only [List.not_mem_nil, false_or]
    · have hrest := ih (h.concat e)
      simp only [List.append_assoc, List.singleton_append] at hrest
      rw [if_neg custom, List.mem_append, hrest, Declaration.findings, if_neg custom,
        ← h e (Bool.eq_false_iff.mpr custom)]

/-- A finding on a declaration is made in a ruleset by the check of its declarations. -/
theorem mem_lintRuleset_iff (h : f.finding.isOnDeclaration = true) (rule : Ruleset)
    (children : List Node) :
    f ∈ lintRuleset rule children ↔ f ∈ lintDeclarations [] (declarationsIn children) := by
  rw [lintRuleset]
  split
  · rename_i hempty
    have hnone : declarationsIn children = [] := by
      rw [declarationsIn, List.filterMap_eq_nil_iff]
      intro node hnode
      cases node with
      | comment => rfl
      | ruleset | atRule | declaration => cases List.all_eq_true.mp hempty _ hnode
    rw [hnone, lintDeclarations, List.mem_singleton]
    constructor
    · rintro rfl
      cases h
    · intro hmem
      cases hmem
  · rfl

mutual

/-- The findings on the declarations in and below a node are those of the rulesets there. -/
theorem Node.mem_lint_iff (h : f.finding.isOnDeclaration = true) : ∀ node : Node,
    f ∈ node.lint ↔ ∃ rule children,
      (Node.ruleset rule children = node ∨ Below (.ruleset rule children) node.children) ∧
        f ∈ lintDeclarations [] (declarationsIn children)
  | .ruleset rule children => by
    rw [Node.lint, List.mem_append, mem_lintRuleset_iff h, mem_lintNodes_iff h children]
    constructor
    · rintro (hmem | ⟨rule', children', hbelow, hmem⟩)
      · exact ⟨rule, children, .inl rfl, hmem⟩
      · exact ⟨rule', children', .inr hbelow, hmem⟩
    · rintro ⟨rule', children', hself | hbelow, hmem⟩
      · obtain ⟨rfl, rfl⟩ := Node.ruleset.inj hself
        exact .inl hmem
      · exact .inr ⟨rule', children', hbelow, hmem⟩
  | .atRule rule children => by
    have hname : f ∉ (if Knowledge.knowsAtRule rule.name then []
        else [⟨.unknownAtRule rule.name, rule.nameSpan⟩] : List Diagnostic) := by
      intro hmem
      split at hmem
      · cases hmem
      · obtain rfl := List.mem_singleton.mp hmem
        cases h
    rw [Node.lint, List.mem_append, or_iff_right hname, mem_lintNodes_iff h children]
    simp only [Node.children, reduceCtorEq, false_or]
  | .declaration _ => by simp [Node.lint, Node.children, not_below_nil]
  | .comment _ => by simp [Node.lint, Node.children, not_below_nil]

/-- What is found about declarations is found in the block of some ruleset. -/
theorem mem_lintNodes_iff (h : f.finding.isOnDeclaration = true) : ∀ nodes : List Node,
    f ∈ lintNodes nodes ↔ ∃ rule children, Below (.ruleset rule children) nodes ∧
      f ∈ lintDeclarations [] (declarationsIn children)
  | [] => by simp [lintNodes, not_below_nil]
  | node :: nodes => by
    rw [lintNodes, List.mem_append, node.mem_lint_iff h, mem_lintNodes_iff h nodes]
    simp only [below_cons, ← or_assoc, or_and_right, exists_or]

end

/-- What is found wrong with declarations is found declaration by declaration. -/
theorem mem_lintNodes_iff_setBehind (h : f.finding.isOnDeclaration = true) :
    f ∈ lintNodes nodes ↔
      ∃ earlier d, SetBehind nodes earlier d ∧ f ∈ d.findings (d.repeats earlier) := by
  simp only [mem_lintNodes_iff h, mem_lintDeclarations_iff seenOf_nil, List.nil_append]
  constructor
  · rintro ⟨rule, children, hbelow, earlier, d, later, hsplit, hmem⟩
    exact ⟨earlier, d, ⟨rule, children, later, hbelow, hsplit⟩, hmem⟩
  · rintro ⟨earlier, d, ⟨rule, children, later, hbelow, hsplit⟩, hmem⟩
    exact ⟨rule, children, hbelow, earlier, d, later, hsplit, hmem⟩

end CssWorkbench
