import CssWorkbench.Proofs.Custom.NameTokens
import CssWorkbench.Proofs.Tree.Roles

/-!
# Occurrences with another name

Where tokens that name custom properties are written anew, declarations set custom properties and
refer to them in the same places as before, and only the names differ. Which tokens are written
anew is settled by what they say: their name and their place.
-/

namespace CssWorkbench

/-- A token and the token that stands in its place, which has a new name if the labels of the token
are among those in question. These are labels of tokens that name custom properties. -/
structure Renames (names : String × Span → Bool) (new : String) (t u : Token) : Prop where
  kind : u.kind = t.kind
  value : u.value = if names t.labels then new else t.value
  custom : names t.labels = true → t.kind = .ident ∧ t.isCustomName = true

/-- An occurrence and the one that stands in its place. -/
structure RenamesOccurrence (names : String × Span → Bool) (new : String) (o o' : Occurrence) :
    Prop where
  access : o'.access = o.access
  name : o'.name = if names o.labels then new else o.name

variable {names : String × Span → Bool} {new : String} {t u : Token} {ts us : List Token}

/-- A token that is no identifier keeps its value. -/
theorem Renames.value_eq (h : Renames names new t u) (hkind : t.kind ≠ .ident) :
    u.value = t.value := by
  rw [h.value, if_neg fun hnames => hkind (h.custom hnames).1]

/-- Blanks and comments stay such. -/
theorem Renames.isTrivia (h : Renames names new t u) : u.isTrivia = t.isTrivia := by
  rw [Token.isTrivia, Token.isTrivia, h.kind]

/-- A token opens the same functions as before. -/
theorem Renames.isFunction (h : Renames names new t u) (name : String) :
    u.isFunction name = t.isFunction name := by
  rw [Token.isFunction, Token.isFunction, h.kind]
  by_cases hkind : t.kind = .function
  · rw [h.value_eq (by simp [hkind])]
  · simp [hkind]

/-- Custom names stay custom names, and others stay what they are. -/
theorem Renames.isCustomName (h : Renames names new t u)
    (hnew : ['-', '-'].isPrefixOf new.toList = true) : u.isCustomName = t.isCustomName := by
  rw [Token.isCustomName, h.value]
  split
  · rename_i hnames
    exact hnew.trans (h.custom hnames).2.symm
  · rfl

/-- The name of a custom property is not the word of importance. -/
theorem ne_important_of_custom {name : String} (h : ['-', '-'].isPrefixOf name.toList = true) :
    name ≠ "important" := by
  rintro rfl
  simp at h

/-- No role in a statement changes with a name. -/
theorem respectsRoles_renames (hnew : ['-', '-'].isPrefixOf new.toList = true) :
    RespectsRoles (Renames names new) := by
  intro t u h
  rw [Token.role, Token.role, Token.isDelim, Token.isDelim, h.kind]
  by_cases hnames : names t.labels = true
  · obtain ⟨hkind, hcustom⟩ := h.custom hnames
    have hvalue : u.value = new := by rw [h.value, if_pos hnames]
    simp [hkind, hvalue, ne_important_of_custom hnew, ne_important_of_custom hcustom]
  · rw [h.value, if_neg hnames]

/-- The first token that passes a test stands in the same place. -/
theorem find?_related {R : Token → Token → Prop} {p : Token → Bool}
    (hp : ∀ ⦃t u⦄, R t u → p u = p t) (h : List.Forall₂ R ts us) :
    (ts.find? p = none ∧ us.find? p = none) ∨
      ∃ found found', ts.find? p = some found ∧ us.find? p = some found' ∧ R found found' := by
  induction h with
  | nil => exact .inl ⟨rfl, rfl⟩
  | @cons t u ts us htu _ ih =>
    rw [List.find?_cons, List.find?_cons, hp htu]
    split
    · exact .inr ⟨t, u, rfl, rfl, htu⟩
    · exact ih

/-- A reference stays a reference, and what is none does not become one. -/
theorem reference?_renames (hnew : ['-', '-'].isPrefixOf new.toList = true)
    (htu : Renames names new t u) (h : List.Forall₂ (Renames names new) ts us) :
    (reference? t ts = none ∧ reference? u us = none) ∨
      ∃ o o', reference? t ts = some o ∧ reference? u us = some o' ∧
        RenamesOccurrence names new o o' := by
  unfold reference?
  rw [htu.isFunction]
  split
  · rcases find?_related (fun _ _ htu => congrArg Bool.not htu.isTrivia) h with
      ⟨hnone, hnone'⟩ | ⟨name, name', hname, hname', hrename⟩
    · exact .inl ⟨by rw [hnone], by rw [hnone']⟩
    · rw [hname, hname']
      have htest : (name'.is .ident && name'.isCustomName) = (name.is .ident && name.isCustomName) := by
        rw [Token.is, Token.is, hrename.kind, hrename.isCustomName hnew]
      by_cases hcustom : (name.is .ident && name.isCustomName) = true
      · exact .inr ⟨_, _, if_pos hcustom, if_pos (htest.trans hcustom), rfl, hrename.value⟩
      · exact .inl ⟨if_neg hcustom, if_neg (htest ▸ hcustom)⟩
  · exact .inl ⟨rfl, rfl⟩

/-- The references are those from before, each of them renamed if it had one of the names. -/
theorem references_renames (hnew : ['-', '-'].isPrefixOf new.toList = true)
    (h : List.Forall₂ (Renames names new) ts us) :
    List.Forall₂ (RenamesOccurrence names new) (references ts) (references us) := by
  induction h with
  | nil => exact .nil
  | @cons t u ts us htu hrest ih =>
    rw [references, references]
    rcases reference?_renames hnew htu hrest with ⟨hnone, hnone'⟩ | ⟨o, o', ho, ho', hrename⟩
    · rw [hnone, hnone']
      exact ih
    · rw [ho, ho']
      exact .cons hrename ih

/-- The occurrences in a declaration are those in the one that stands in its place. -/
theorem occurrences_renames (hnew : ['-', '-'].isPrefixOf new.toList = true) {d d' : Declaration}
    (h : RelatedDeclarations (Renames names new) d d') :
    List.Forall₂ (RenamesOccurrence names new) d.occurrences d'.occurrences := by
  rw [Declaration.occurrences, Declaration.occurrences]
  refine List.rel_append ?_ (references_renames hnew h.tokens)
  rw [Declaration.isCustom, Declaration.isCustom, h.property.isCustomName hnew]
  split
  · exact .cons ⟨rfl, h.property.value⟩ .nil
  · exact .nil

end CssWorkbench
