import CssWorkbench.Proofs.Layout.PrintedValue
import CssWorkbench.Proofs.Layout.Writing

/-!
# Printing declarations and at-rules

The text of a declaration, of an at-rule without a block and of what stands in front of the block
of an at-rule, and what is said of the tokens that it is printed of: they are a stretch of the source
that closes its brackets and starts and ends with no blank.
-/

namespace CssWorkbench

variable {source : String} {t u colon : Token}
  {ts run left rest prelude behindColon : List Token} {semi : Option Token} {cs ds : List Char}

/-- What is left behind some tokens of a tail is one. -/
theorem TailOf.dropWhile (h : TailOf source ts cs) (p : Token → Bool) :
    ∃ ds, TailOf source (ts.dropWhile p) ds := by
  rw [← @List.takeWhile_append_dropWhile _ p ts] at h
  exact h.append

/-- The front of some tokens starts like they do. -/
theorem head?_of_append {front behind : List Token} (h : ts = front ++ behind)
    (hfirst : ∀ t ∈ ts.head?, t.kind ≠ .whitespace) : ∀ t ∈ front.head?, t.kind ≠ .whitespace := by
  intro t ht
  obtain ⟨front, rfl⟩ := List.head?_eq_some_iff.mp ht
  exact hfirst t (by rw [h]; rfl)

/-- No value ends in a blank. -/
theorem getLast?_valueTokens (run : List Token) :
    ∀ t ∈ (valueTokens run).getLast?, t.kind ≠ .whitespace := by
  unfold valueTokens
  split <;> exact getLast?_trimTrailingBlanks _

/-- The value of a run closes its brackets if the run does. -/
theorem inside_valueTokens (hinside : Inside haltsValue valueDepth 0 run 0) :
    Inside haltsValue valueDepth 0 (valueTokens run) 0 := by
  obtain ⟨behind, hrun, hbehind⟩ := valueTokens_append run
  rw [hrun] at hinside
  obtain ⟨middle, hvalue, hrest⟩ := inside_append.mp hinside
  have hneutral : ∀ u ∈ behind, ∀ depth, valueDepth depth u.kind = depth := by
    intro u hu depth
    have hcases : (u.kind = .whitespace ∨ u.kind = .comment) ∨ u.kind = .delim ∨ u.kind = .ident := by
      simpa [Token.isTrivia] using hbehind u hu
    rcases hcases with (hk | hk) | hk | hk <;> rw [hk] <;> rfl
  obtain rfl := hrest.eq_of_neutral hneutral
  exact hvalue

/-- No bracket is closed behind the opening of a function. -/
theorem Inside.getLast_ne_function {halts : TokenKind → Bool} {count : Nat → TokenKind → Nat}
    {depth : Nat} (hcount : ∀ depth, count depth .function = depth + 1)
    (h : Inside halts count depth ts 0) : ∀ t ∈ ts.getLast?, t.kind ≠ .function := by
  intro t ht hkind
  obtain ⟨front, rfl⟩ := List.getLast?_eq_some_iff.mp ht
  obtain ⟨middle, -, hlast⟩ := inside_append.mp h
  have hzero := (inside_singleton.mp hlast).2
  rw [hkind, hcount] at hzero
  exact absurd hzero (Nat.succ_ne_zero middle)

/-- A declaration is printed as its name, a colon and its value. -/
theorem text_declarationNode (source : String) (t colon : Token) (run : List Token)
    (semi : Option Token) :
    ((declarationNode t colon run semi).text source).toList = t.value.toList ++
      ':' :: ' ' :: valueText source (valueTokens run)
        (beforeImportant? (trimTrailingBlanks run)).isSome := by
  have hself : (declarationNode t colon run semi).name = t.value := rfl
  rw [Declaration.text, declarationNode_tokens, declarationNode_important, valueText, hself]
  simp only [String.toList_append, List.append_assoc]
  refine congrArg _ (congrArg (':' :: ' ' :: ·) (congrArg _ ?_))
  split
  · rw [String.toList_append]
    split <;> rfl
  · rfl

/-- What is said of the run behind a colon: it is a stretch of the source that is halted where no
bracket is open. -/
structure ValueRun (source : String) (run : List Token) : Prop where
  tail : ∃ rest cs, TailOf source (run ++ rest) cs ∧ rest ≠ []
  first : ∀ t ∈ run.head?, t.kind ≠ .whitespace
  inside : Inside haltsValue valueDepth 0 run 0

/-- The run of a value and what follows it are the tokens from some place on. -/
theorem TailOf.value (htail : TailOf source (t :: ts) cs)
    (gap : ts.dropWhile (·.is .whitespace) = colon :: behindColon)
    (value : takeValue (behindColon.dropWhile (·.is .whitespace)) = (run, left)) :
    ∃ ds, TailOf source (run ++ left) ds := by
  obtain ⟨_, hts⟩ := htail.tail
  obtain ⟨_, hcolon⟩ := hts.dropWhile (·.is .whitespace)
  rw [gap] at hcolon
  obtain ⟨_, hbehind⟩ := hcolon.tail
  rw [← takeRun_eq_append value]
  exact hbehind.dropWhile _

/-- What is taken for a value in front of something is the run of one. -/
theorem valueRun_of_takeValue (htail : TailOf source (t :: ts) cs)
    (gap : ts.dropWhile (·.is .whitespace) = colon :: behindColon)
    (value : takeValue (behindColon.dropWhile (·.is .whitespace)) = (run, left))
    (hleft : left ≠ []) : ValueRun source run := by
  obtain ⟨ds, hrun⟩ := htail.value gap value
  refine ⟨⟨left, ds, hrun, hleft⟩,
    head?_of_append (takeRun_eq_append value) (head?_dropBlanks behindColon), ?_⟩
  obtain ⟨u, left, rfl⟩ := List.exists_cons_of_ne_nil hleft
  exact (takeRun_inside_zero value).1

/-- The head of an at-rule is its keyword and its prelude, if there is one. -/
theorem head_atRuleOf (keyword : Token) (prelude : List Token) (stop : Nat) (block : Option Span) :
    (atRuleOf keyword prelude stop block).head source = "@" ++ keyword.value ++
      (if joinTokens source (trimBlanks prelude) = "" then ""
        else " " ++ joinTokens source (trimBlanks prelude)) := rfl

/-- The prelude of an at-rule, trimmed: it stands in the source in front of more, it starts and ends
with no blank, and no function is open at its end. -/
theorem trimmed_prelude (htail : TailOf source (t :: ts) cs)
    (run : takePrelude 0 ts = (prelude, u :: left)) :
    (∃ rest ds, TailOf source (trimBlanks prelude ++ rest) ds ∧ rest ≠ []) ∧
      (∀ t ∈ (trimBlanks prelude).head?, t.kind ≠ .whitespace) ∧
        ∀ t ∈ (trimBlanks prelude).getLast?, t.kind ≠ .whitespace ∧ t.kind ≠ .function := by
  have hinside : Inside haltsPrelude TokenKind.inlineDepth 0 prelude 0 :=
    (takeRun_inside_zero run).1
  have hclosed := (inside_prelude_congr (bareTokens_trimBlanks prelude)).mpr hinside
  refine ⟨?_, head?_of_append (trimTrailingBlanks_append _).choose_spec.1 (head?_dropBlanks prelude),
    fun t ht => ⟨getLast?_trimTrailingBlanks _ t ht,
      hclosed.getLast_ne_function (fun _ => rfl) t ht⟩⟩
  obtain ⟨front, behind, hsplit, -⟩ := trimBlanks_append prelude
  obtain ⟨ds, htsTail⟩ := htail.tail
  rw [takeRun_eq_append run, hsplit, List.append_assoc, List.append_assoc] at htsTail
  obtain ⟨_, hrun⟩ := htsTail.append
  exact ⟨behind ++ u :: left, _, hrun, by simp⟩

/-- An at-rule with something in its prelude is printed with a space in front of that. -/
theorem toList_head_atRuleOf (htext : (t.text source).toList = '@' :: t.value.toList)
    (hjoined : joinTokens source (trimBlanks prelude) ≠ "") (stop : Nat) (block : Option Span) :
    ((atRuleOf t prelude stop block).head source).toList =
      (t.text source).toList ++ ' ' :: (joinTokens source (trimBlanks prelude)).toList := by
  rw [head_atRuleOf, htext]
  simp [hjoined]

/-- An at-rule with an empty prelude is printed as its keyword. -/
theorem toList_head_atRuleOf_empty (htext : (t.text source).toList = '@' :: t.value.toList)
    (hempty : trimBlanks prelude = []) (stop : Nat) (block : Option Span) :
    ((atRuleOf t prelude stop block).head source).toList = (t.text source).toList := by
  rw [head_atRuleOf, hempty, htext]
  simp [joinTokens, joinTokensAfter]

end CssWorkbench
