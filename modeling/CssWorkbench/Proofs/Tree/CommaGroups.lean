import CssWorkbench.Proofs.Tree.Runs
import CssWorkbench.Tree.Selector

/-!
# Groups between commas

`CommaGroups` says how a list of tokens is parted at the commas outside brackets: each group goes
on as long as a run that only a comma halts. There is one way to part a list, and it is the one
that `splitCommasFrom` computes.
-/

namespace CssWorkbench

variable {depth stop : Nat} {t : Token} {ts group : List Token} {groups : List (List Token)}

/-- Whether a token parts the selectors of a list. -/
def partsSelectors (kind : TokenKind) : Bool := kind = .comma

/-- The groups of some tokens, of which `depth` brackets are open at the front. -/
inductive CommaGroups : Nat → List Token → List (List Token) → Prop
  | last {depth stop : Nat} {group : List Token}
      (inside : Inside partsSelectors TokenKind.inlineDepth depth group stop) :
      CommaGroups depth group [group]
  | more {depth : Nat} {comma : Token} {group ts : List Token} {groups : List (List Token)}
      (inside : Inside partsSelectors TokenKind.inlineDepth depth group 0)
      (kind : comma.kind = .comma) (behind : CommaGroups 0 ts groups) :
      CommaGroups depth (group ++ comma :: ts) (group :: groups)

/-- There is always a group. -/
theorem CommaGroups.ne_nil (h : CommaGroups depth ts groups) : groups ≠ [] := by
  cases h with
  | last inside => exact List.cons_ne_nil _ _
  | more inside kind behind => exact List.cons_ne_nil _ _

/-- A group grows at its front. -/
theorem CommaGroups.cons (h : CommaGroups (t.kind.inlineDepth depth) ts (group :: groups))
    (ht : ¬ (depth = 0 ∧ partsSelectors t.kind = true)) :
    CommaGroups depth (t :: ts) ((t :: group) :: groups) := by
  cases h with
  | last inside => exact .last ⟨ht, inside⟩
  | more inside kind behind => exact @CommaGroups.more _ _ (t :: group) _ _ ⟨ht, inside⟩ kind behind

/-- Tokens are parted into groups, of which there is at least one. -/
theorem splitCommasFrom_groups (depth : Nat) (ts : List Token) :
    CommaGroups depth ts (splitCommasFrom depth ts) := by
  induction ts generalizing depth with
  | nil => exact .last rfl
  | cons t ts ih =>
    rw [splitCommasFrom]
    split
    · rename_i hcomma
      obtain ⟨hkind, rfl⟩ : t.kind = .comma ∧ depth = 0 := by simpa using hcomma
      exact @CommaGroups.more _ _ [] _ _ rfl hkind (ih 0)
    · rename_i hcomma
      have hrest := ih (t.kind.inlineDepth depth)
      have ht : ¬ (depth = 0 ∧ partsSelectors t.kind = true) := by
        simpa [partsSelectors, and_comm] using hcomma
      split
      · rename_i group groups heq
        exact (heq ▸ hrest).cons ht
      · rename_i heq
        exact absurd heq hrest.ne_nil

/-- A group that starts some tokens is the first one. -/
theorem splitCommasFrom_append {us : List Token} {front : List Token}
    (inside : Inside partsSelectors TokenKind.inlineDepth depth front stop)
    (h : splitCommasFrom stop us = group :: groups) :
    splitCommasFrom depth (front ++ us) = (front ++ group) :: groups := by
  induction front generalizing depth with
  | nil =>
    obtain rfl : depth = stop := inside
    exact h
  | cons t ts ih =>
    obtain ⟨ht, hrest⟩ := inside
    rw [List.cons_append, splitCommasFrom, if_neg (by simpa [partsSelectors, and_comm] using ht),
      ih hrest]
    rfl

/-- The groups are what the parser parts the tokens into. -/
theorem CommaGroups.splitCommasFrom_eq (h : CommaGroups depth ts groups) :
    splitCommasFrom depth ts = groups := by
  induction h with
  | @last depth stop group inside =>
    have hsplit := splitCommasFrom_append inside (show splitCommasFrom stop [] = [[]] from rfl)
    simpa only [List.append_nil] using hsplit
  | @more depth comma group ts groups inside kind behind ih =>
    have hcomma : splitCommasFrom 0 (comma :: ts) = [] :: groups := by
      rw [splitCommasFrom, if_pos (by simp [kind]), ih]
    rw [splitCommasFrom_append inside hcomma, List.append_nil]

/-- The selectors that some tokens spell. -/
def selectorsOf (tokens : List Token) : List Selector :=
  (splitCommas tokens).filterMap Selector.ofTokens?

/-- The selectors of a list are those of its groups. -/
theorem selectors_ofTokens (tokens : List Token) (behind : Nat) :
    (SelectorList.ofTokens tokens behind).selectors = selectorsOf tokens := by
  unfold SelectorList.ofTokens selectorsOf
  generalize (splitCommas tokens).filterMap Selector.ofTokens? = selectors
  cases selectors with
  | nil => rfl
  | cons s ss =>
    obtain ⟨last, hlast⟩ : ∃ last, (s :: ss).getLast? = some last := ⟨_, List.getLast?_cons⟩
    simp [hlast]

end CssWorkbench
