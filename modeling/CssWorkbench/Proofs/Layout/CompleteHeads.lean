import CssWorkbench.Proofs.Token.Tail
import CssWorkbench.Tree.Selector
import CssWorkbench.Tree.Walk

/-!
# Rulesets with complete selectors

A ruleset of a source is complete if each selector in front of its block holds a compound; others
are left out of the tree, and no layout of the tree can bring them back. What stands in front of the
block is cut out of the source by the spans of the ruleset.
-/

namespace CssWorkbench

variable {source : String} {start stop : Nat} {t opener : Token} {front head inner : List Token}
  {cs : List Char} {rule : Ruleset}

/-- The tokens of a source that start between two offsets. -/
def tokensBetween (source : String) (start stop : Nat) : List Token :=
  (scan source).filter fun t => start ≤ t.start && t.start < stop

/-- Whether there is a compound among the parts that a group of tokens spells. -/
def holdsCompound (group : List Token) : Bool :=
  (group.foldl SelectorDraft.add .empty).flush.parts.any SelectorPart.isCompound

/-- Whether each selector in front of the block holds a compound; a bare block has no selectors. -/
def Ruleset.isComplete (source : String) (rule : Ruleset) : Bool :=
  let head := tokensBetween source rule.span.start rule.block.start
  head.isEmpty || (splitCommas head).all holdsCompound

/-- Whether a node is no ruleset or a complete one. -/
def Node.isComplete (source : String) : Node → Bool
  | .ruleset rule _ => rule.isComplete source
  | _ => true

/-- A group of tokens spells a selector just if it holds a compound. -/
theorem isSome_ofTokens?_iff (group : List Token) :
    (Selector.ofTokens? group).isSome = holdsCompound group := by
  rw [Selector.ofTokens?, holdsCompound, SelectorDraft.finish]
  generalize (group.foldl SelectorDraft.add .empty).flush.parts = parts
  cases hdrop : parts.dropWhile fun p => !p.isCompound with
  | nil =>
    have hnone : parts.any SelectorPart.isCompound = false := by
      simpa using List.dropWhile_eq_nil_iff.mp hdrop
    simp [hnone]
  | cons p ps =>
    have hp : p.isCompound = true := by
      have hhead := List.head?_dropWhile_not (fun p : SelectorPart => !p.isCompound) parts
      rw [hdrop] at hhead
      simpa using hhead
    have hmem : p ∈ parts := (List.dropWhile_sublist _).mem (hdrop ▸ List.mem_cons_self)
    have hany : parts.any SelectorPart.isCompound = true := List.any_eq_true.mpr ⟨p, hmem, hp⟩
    simp [hany]

/-- The tokens of a tail from its first one to some other one. -/
theorem TailOf.tokensBetween_eq (h : TailOf source (t :: head ++ opener :: inner) cs) :
    tokensBetween source t.start opener.start = t :: head := by
  obtain ⟨front, hfront⟩ := h.tokens
  have htiles := tiles_tokensFrom 0 source.toList
  rw [Nat.zero_add, hfront] at htiles
  obtain ⟨middle, hbefore, htail⟩ := tiles_append.mp htiles
  obtain ⟨middle', hhead, hopener, hpos, hinner⟩ := tiles_append.mp htail
  have hstart : t.start = middle := hhead.1
  have hscan : scan source = front ++ ((t :: head) ++ (opener :: (inner ++
      [Token.eof (Text.size source)]))) := by
    rw [scan_eq_append, hfront]
    simp
  have hkept : (t :: head).filter (fun u => t.start ≤ u.start && u.start < opener.start) =
      t :: head := by
    refine List.filter_eq_self.mpr fun u hu => ?_
    have hbounds := hhead.of_mem hu
    simp only [Bool.and_eq_true, decide_eq_true_eq]
    omega
  have hearlier : front.filter (fun u => t.start ≤ u.start && u.start < opener.start) = [] := by
    refine List.filter_eq_nil_iff.mpr fun u hu => ?_
    have hbounds := hbefore.of_mem hu
    simp only [Bool.and_eq_true, decide_eq_true_eq]
    omega
  have hlater : (opener :: (inner ++ [Token.eof (Text.size source)])).filter
      (fun u => t.start ≤ u.start && u.start < opener.start) = [] := by
    refine List.filter_eq_nil_iff.mpr fun u hu => ?_
    have hbounds : opener.start ≤ u.start := by
      rcases List.mem_cons.mp hu with rfl | hu
      · exact Nat.le_refl _
      rcases List.mem_append.mp hu with hu | hu
      · have hmem := (hinner.of_mem hu).1
        omega
      · have hle := hinner.le
        obtain rfl := List.mem_singleton.mp hu
        have heof : (Token.eof (Text.size source)).start = Text.byteLength source.toList := rfl
        omega
    simp only [Bool.and_eq_true, decide_eq_true_eq]
    omega
  rw [tokensBetween, hscan, List.filter_append, List.filter_append, hearlier, hkept, hlater]
  simp

end CssWorkbench
