import CssWorkbench.Proofs.Analysis.DeclarationSearch
import CssWorkbench.Proofs.Tree.NodeOrder

/-!
# What is found wrong and what is offered

Findings and fixes come from two searches over the tree: one goes over all rulesets, the other goes
down to an offset. Both come to a declaration and those in front of it in its ruleset, and say the
same of it. The second search misses a declaration only at its start, where it prefers one that
ends there.
-/

namespace CssWorkbench

/-- A finding that is made of a declaration. -/
def Diagnostic.IsOn (f : Diagnostic) (d : Declaration) : Prop :=
  f = ⟨.unknownProperty d.name, d.property.span⟩ ∨ f = ⟨.duplicateProperty d.name, d.span⟩

/-- What is offered for a declaration, which may repeat an earlier one. -/
def Declaration.fixes (source : String) (repeated : Bool) (d : Declaration) : List Fix :=
  if d.isCustom then []
  else (if Knowledge.knowsProperty d.name then []
      else (suggestProperties d.name).map (Fix.respell d.property.span)) ++
    if repeated then [Fix.remove (removalSpan source d.span) d.name] else []

variable {source : String} {stop lower upper offset : Nat} {repeated : Bool} {f : Diagnostic}
  {fix : Fix} {d : Declaration} {earlier later : List Declaration} {sheet : Stylesheet}
  {nodes children : List Node}

/-! ## One declaration -/

/-- What is taken out with a declaration covers it. -/
theorem covers_removalSpan (source : String) (span : Span) :
    (removalSpan source span).covers span = true := by
  rw [Span.covers_iff, removalSpan]
  refine ⟨?_, Nat.le_trans (Nat.le_add_right _ _) (Nat.le_add_right _ _)⟩
  dsimp only
  split
  · exact Nat.sub_le _ _
  · exact Nat.le_refl _

/-- Of a declaration an unknown name and a repetition are found, unless it is a custom property. -/
theorem mem_findings_iff : f ∈ d.findings repeated ↔ d.isCustom = false ∧
    (f = ⟨.unknownProperty d.name, d.property.span⟩ ∧ Knowledge.knowsProperty d.name = false ∨
      f = ⟨.duplicateProperty d.name, d.span⟩ ∧ repeated = true) := by
  rw [Declaration.findings]
  cases d.isCustom <;> cases Knowledge.knowsProperty d.name <;> cases repeated <;> simp

/-- The fixes of a declaration are other spellings of an unknown name, and its removal where it
repeats another one. -/
theorem mem_fixes_iff : fix ∈ d.fixes source repeated ↔ d.isCustom = false ∧
    ((∃ name ∈ suggestProperties d.name, fix = .respell d.property.span name) ∧
        Knowledge.knowsProperty d.name = false ∨
      fix = .remove (removalSpan source d.span) d.name ∧ repeated = true) := by
  rw [Declaration.fixes]
  cases d.isCustom <;> cases Knowledge.knowsProperty d.name <;> cases repeated <;>
    simp [eq_comm]

/-- A fix is offered for something that is found wrong with the declaration. -/
theorem exists_mem_findings (h : fix ∈ d.fixes source repeated) :
    ∃ f ∈ d.findings repeated, f.IsOn d ∧ f.code = fix.code ∧
      fix.edit.span.covers f.span = true := by
  obtain ⟨custom, ⟨⟨name, -, rfl⟩, unknown⟩ | ⟨rfl, hrepeated⟩⟩ := mem_fixes_iff.mp h
  · refine ⟨_, mem_findings_iff.mpr ⟨custom, .inl ⟨rfl, unknown⟩⟩, .inl rfl, rfl, ?_⟩
    exact Span.covers_iff.mpr ⟨Nat.le_refl _, Nat.le_refl _⟩
  · exact ⟨_, mem_findings_iff.mpr ⟨custom, .inr ⟨rfl, hrepeated⟩⟩, .inr rfl, rfl,
      covers_removalSpan source d.span⟩

/-- A repeated property is offered to be taken out. -/
theorem exists_fix_of_duplicate {name : String} {span : Span}
    (h : ⟨.duplicateProperty name, span⟩ ∈ d.findings repeated) :
    ∃ fix ∈ d.fixes source repeated,
      fix.code = .duplicateProperty ∧ fix.edit.span.covers span = true := by
  obtain ⟨custom, ⟨heq, -⟩ | ⟨heq, hrepeated⟩⟩ := mem_findings_iff.mp h
  · cases heq
  · cases heq
    exact ⟨_, mem_fixes_iff.mpr ⟨custom, .inr ⟨rfl, hrepeated⟩⟩, rfl,
      covers_removalSpan source d.span⟩

/-- A property that is not known is offered to be replaced by each that is suggested. -/
theorem filter_fixes_of_unknown {name : String} {span : Span}
    (h : ⟨.unknownProperty name, span⟩ ∈ d.findings repeated) :
    (d.fixes source repeated).filter (fun fix => fix.code = .unknownProperty) =
      (suggestProperties name).map (Fix.respell span) := by
  obtain ⟨custom, ⟨heq, unknown⟩ | ⟨heq, -⟩⟩ := mem_findings_iff.mp h
  · cases heq
    have hall : ∀ fix ∈ (suggestProperties d.name).map (Fix.respell d.property.span),
        decide (fix.code = .unknownProperty) = true := by
      intro fix hfix
      obtain ⟨name, -, rfl⟩ := List.mem_map.mp hfix
      rfl
    rw [Declaration.fixes, custom, unknown, if_neg Bool.false_ne_true, if_neg Bool.false_ne_true,
      List.filter_append, List.filter_eq_self.mpr hall]
    cases repeated <;> simp [Fix.code]
  · cases heq

/-! ## The declaration of an offset -/

/-- The declarations in front of one are those that start before it. -/
theorem Placed.takeWhile_eq (h : Placed stop lower upper children)
    (hsplit : declarationsIn children = earlier ++ d :: later) :
    (declarationsIn children).takeWhile (fun e => e.span.start < d.span.start) = earlier := by
  have hbefore : ∀ e ∈ earlier, decide (e.span.start < d.span.start) = true := by
    intro e he
    have hspan := h.stop_le_start hsplit e he
    simp only [decide_eq_true_eq]
    omega
  rw [hsplit, List.takeWhile_append_of_pos hbefore, List.takeWhile_cons_of_neg (by simp),
    List.append_nil]

/-- What is offered at an offset where the search comes to a declaration. -/
theorem fixesAt_of_found (h : Placed stop lower upper sheet.children) {rule : Ruleset}
    (hbelow : Below (.ruleset rule children) sheet.children)
    (hsplit : declarationsIn children = earlier ++ d :: later)
    (hfound : declarationAmong offset sheet.children = some (declarationsIn children, d)) :
    sheet.fixesAt source offset = d.fixes source (d.repeats earlier) := by
  obtain ⟨lower', upper', -, -, hchildren⟩ :=
    h.descend hbelow (.here (mem_of_declarationsIn_eq hsplit))
  have hfront : (declarationsIn children).takeWhile (fun e => e.span.start < d.span.start) =
      earlier := hchildren.takeWhile_eq hsplit
  rw [Stylesheet.fixesAt, hfound]
  simp only [hfront]
  rfl

/-- A declaration of a ruleset is offered its fixes at each of its offsets, at its start only if
no declaration in front of it ends there. -/
theorem fixesAt_of_setBehind (h : Placed stop lower upper sheet.children)
    (hset : SetBehind sheet.children earlier d) (hcontains : d.span.contains offset = true)
    (hfirst : offset = d.span.start → ∀ e ∈ earlier, e.span.stop ≠ offset) :
    sheet.fixesAt source offset = d.fixes source (d.repeats earlier) := by
  obtain ⟨rule, children, later, hbelow, hsplit⟩ := hset
  apply fixesAt_of_found h hbelow hsplit
  exact h.declarationAmong_of_declaration hbelow hsplit hcontains hfirst

/-- What is offered at an offset is offered for a declaration of a ruleset that it touches. -/
theorem exists_setBehind_of_mem_fixesAt (h : Placed stop lower upper sheet.children)
    (hfix : fix ∈ sheet.fixesAt source offset) :
    ∃ earlier d, SetBehind sheet.children earlier d ∧ d.span.contains offset = true ∧
      fix ∈ d.fixes source (d.repeats earlier) := by
  cases hfound : declarationAmong offset sheet.children with
  | none =>
    rw [Stylesheet.fixesAt, hfound] at hfix
    cases hfix
  | some pair =>
    obtain ⟨siblings, d⟩ := pair
    obtain ⟨rule, children, hbelow, rfl, hmem, htouch⟩ := declarationAmong_sound _ hfound
    obtain ⟨earlier, later, hsplit⟩ := List.append_of_mem hmem
    rw [fixesAt_of_found h hbelow hsplit hfound] at hfix
    exact ⟨earlier, d, ⟨rule, children, later, hbelow, hsplit⟩, htouch, hfix⟩

/-! ## All findings and fixes -/

/-- The declarations of a ruleset are declarations of the tree. -/
theorem SetBehind.mem_declarationsOf (h : SetBehind nodes earlier d) :
    d ∈ declarationsOf nodes ∧ ∀ e ∈ earlier, e ∈ declarationsOf nodes := by
  obtain ⟨rule, children, later, hbelow, hsplit⟩ := h
  have hall : ∀ e ∈ declarationsIn children, e ∈ declarationsOf nodes := fun e he =>
    (hbelow.trans (.here (mem_declarationsIn_iff.mp he))).mem_declarationsOf
  rw [hsplit] at hall
  exact ⟨hall d (List.mem_append_right _ List.mem_cons_self),
    fun e he => hall e (List.mem_append_left _ he)⟩

/-- A finding stands in its declaration, which is not empty, and starts where it does. -/
theorem Placed.finding_span (h : Placed stop lower upper nodes) (hset : SetBehind nodes earlier d)
    (hf : f ∈ d.findings repeated) :
    f.span.start = d.span.start ∧ f.span.stop ≤ d.span.stop ∧ d.span.start < d.span.stop := by
  obtain ⟨rule, children, later, hbelow, hsplit⟩ := hset
  have hnode := hbelow.trans (.here (mem_of_declarationsIn_eq hsplit))
  have hpos : d.span.start < d.span.stop := (h.span_of_below hnode).2.1
  obtain ⟨-, ⟨rfl, -⟩ | ⟨rfl, -⟩⟩ := mem_findings_iff.mp hf
  · have hcovers : d.span.covers d.property.span = true := h.wellPlaced _ hnode
    exact ⟨(h.hasEdges _ hnode).symm, (Span.covers_iff.mp hcovers).2, hpos⟩
  · exact ⟨rfl, Nat.le_refl _, hpos⟩

/-- At the offsets of a finding the fixes are those of the declaration that it is made of. -/
theorem Placed.fixesAt_of_mem_lint (h : Placed stop lower upper sheet.children)
    (hf : f ∈ sheet.lint) (hon : f.finding.isOnDeclaration = true)
    (hoffset : f.span.start < offset ∧ offset ≤ f.span.stop ∨
      offset = f.span.start ∧ ∀ e ∈ declarationsOf sheet.children, e.span.stop ≠ offset) :
    ∃ (d : Declaration) (repeated : Bool), f ∈ d.findings repeated ∧
      sheet.fixesAt source offset = d.fixes source repeated := by
  obtain ⟨earlier, d, hset, hmem⟩ := (mem_lintNodes_iff_setBehind hon).mp hf
  obtain ⟨hstart, hstop, hpos⟩ := h.finding_span hset hmem
  refine ⟨d, d.repeats earlier, hmem, fixesAt_of_setBehind h hset ?_ ?_⟩
  · rw [Span.contains_iff]
    omega
  · intro hat e he
    rcases hoffset with hbehind | ⟨-, hends⟩
    · omega
    · exact hends e (hset.mem_declarationsOf.2 e he)

/-- Findings and fixes agree. At every offset of a finding on a declaration, at its start only if no
declaration ends there, a repeated property is offered to be taken out, and a property that is not
known to be replaced by each one that is suggested. Whatever is offered at an offset is offered for
something that is found wrong with a declaration there. -/
theorem fixes_agree_with_lint (source : String) :
    (∀ f ∈ (parse source).1.lint, ∀ offset,
      (f.span.start < offset ∧ offset ≤ f.span.stop ∨ offset = f.span.start ∧
        ∀ e ∈ declarationsOf (parse source).1.children, e.span.stop ≠ offset) →
      (∀ name, f.finding = .duplicateProperty name →
        ∃ fix ∈ (parse source).1.fixesAt source offset,
          fix.code = .duplicateProperty ∧ fix.edit.span.covers f.span = true) ∧
      (∀ name, f.finding = .unknownProperty name →
        ((parse source).1.fixesAt source offset).filter (fun fix => fix.code = .unknownProperty) =
          (suggestProperties name).map (Fix.respell f.span))) ∧
    ∀ offset, ∀ fix ∈ (parse source).1.fixesAt source offset,
      ∃ d ∈ declarationsOf (parse source).1.children, d.span.contains offset = true ∧
        ∃ f ∈ (parse source).1.lint,
          f.IsOn d ∧ f.code = fix.code ∧ fix.edit.span.covers f.span = true := by
  generalize hsheet : (parse source).1 = sheet
  have hplaced : Placed (Text.size source) 0 (Text.size source) sheet.children :=
    hsheet ▸ parse_placed source
  constructor
  · intro f hf offset hoffset
    constructor
    · intro name hname
      obtain ⟨d, repeated, hmem, hfixes⟩ :=
        hplaced.fixesAt_of_mem_lint hf (by rw [hname]; rfl) hoffset
      rw [hfixes]
      apply exists_fix_of_duplicate
      rwa [← hname]
    · intro name hname
      obtain ⟨d, repeated, hmem, hfixes⟩ :=
        hplaced.fixesAt_of_mem_lint hf (by rw [hname]; rfl) hoffset
      rw [hfixes]
      apply filter_fixes_of_unknown
      rwa [← hname]
  · intro offset fix hfix
    obtain ⟨earlier, d, hset, htouch, hmem⟩ := exists_setBehind_of_mem_fixesAt hplaced hfix
    obtain ⟨f, hf, hon, hcode, hcovers⟩ := exists_mem_findings hmem
    have hlint : f ∈ sheet.lint := by
      refine (mem_lintNodes_iff_setBehind ?_).mpr ⟨earlier, d, hset, hf⟩
      rcases hon with rfl | rfl <;> rfl
    exact ⟨d, hset.mem_declarationsOf.1, htouch, f, hlint, hon, hcode, hcovers⟩

/-- A property that is misspelled, and one that is set again behind a blank. -/
theorem fixes_agree_with_lint_of_both :
    ⟨.unknownProperty "colr", ⟨2, 6⟩⟩ ∈
        (parse "a\x7bcolr:red;color:red; color:blue\x7d").1.lint ∧
      ⟨.duplicateProperty "color", ⟨22, 32⟩⟩ ∈
        (parse "a\x7bcolr:red;color:red; color:blue\x7d").1.lint ∧
      (∀ e ∈ declarationsOf (parse "a\x7bcolr:red;color:red; color:blue\x7d").1.children,
        e.span.stop ≠ 2 ∧ e.span.stop ≠ 22) ∧
      ((parse "a\x7bcolr:red;color:red; color:blue\x7d").1.fixesAt
          "a\x7bcolr:red;color:red; color:blue\x7d" 2).filter
          (fun fix => fix.code = .unknownProperty) =
        (suggestProperties "colr").map (Fix.respell ⟨2, 6⟩) ∧
      ∃ fix ∈ (parse "a\x7bcolr:red;color:red; color:blue\x7d").1.fixesAt
          "a\x7bcolr:red;color:red; color:blue\x7d" 22,
        fix.code = .duplicateProperty ∧ fix.edit.span.covers ⟨22, 32⟩ = true ∧
        ∃ d ∈ declarationsOf (parse "a\x7bcolr:red;color:red; color:blue\x7d").1.children,
          d.span.contains 22 = true ∧
          ∃ f ∈ (parse "a\x7bcolr:red;color:red; color:blue\x7d").1.lint,
            f.IsOn d ∧ f.code = fix.code ∧ fix.edit.span.covers f.span = true := by
  obtain ⟨hfound, hoffered⟩ := fixes_agree_with_lint "a\x7bcolr:red;color:red; color:blue\x7d"
  have hunknown : ⟨.unknownProperty "colr", ⟨2, 6⟩⟩ ∈
      (parse "a\x7bcolr:red;color:red; color:blue\x7d").1.lint := by decide +kernel
  have hduplicate : ⟨.duplicateProperty "color", ⟨22, 32⟩⟩ ∈
      (parse "a\x7bcolr:red;color:red; color:blue\x7d").1.lint := by decide +kernel
  have hapart : ∀ e ∈ declarationsOf (parse "a\x7bcolr:red;color:red; color:blue\x7d").1.children,
      e.span.stop ≠ 2 ∧ e.span.stop ≠ 22 := by decide +kernel
  obtain ⟨-, hrespell⟩ := hfound _ hunknown 2 (.inr ⟨rfl, fun e he => (hapart e he).1⟩)
  obtain ⟨hremove, -⟩ := hfound _ hduplicate 22 (.inr ⟨rfl, fun e he => (hapart e he).2⟩)
  obtain ⟨fix, hfix, hcode, hcovers⟩ := hremove "color" rfl
  exact ⟨hunknown, hduplicate, hapart, hrespell "colr" rfl, fix, hfix, hcode, hcovers,
    hoffered 22 fix hfix⟩

/-- A property that is set again right behind the declaration that set it is not offered to be
taken out at its start. -/
theorem duplicate_without_fix_of_adjacent :
    ⟨.duplicateProperty "color", ⟨12, 22⟩⟩ ∈ (parse "a\x7bcolor:red;color:blue\x7d").1.lint ∧
      ¬ ∃ fix ∈ (parse "a\x7bcolor:red;color:blue\x7d").1.fixesAt
          "a\x7bcolor:red;color:blue\x7d" 12,
        fix.code = .duplicateProperty ∧ fix.edit.span.covers ⟨12, 22⟩ = true := by
  have hnone : (parse "a\x7bcolor:red;color:blue\x7d").1.fixesAt
      "a\x7bcolor:red;color:blue\x7d" 12 = [] := by decide +kernel
  refine ⟨by decide +kernel, ?_⟩
  rintro ⟨fix, hfix, -⟩
  rw [hnone] at hfix
  cases hfix

end CssWorkbench
