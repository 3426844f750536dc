import CssWorkbench.Custom.Occurrence
import CssWorkbench.Proofs.Token.FirmSequel
import CssWorkbench.Proofs.Tree.ReadingOfParser

/-!
# The tokens that name custom properties

Every occurrence has a name token of its own, and the tokens stand in the order of the
occurrences. In front of each of them stands a token that nothing can be written against: `{`,
`}`, `;`, blanks, a comment, `<!--`, `-->` or `var(`. The parser only starts a declaration behind
one of these, whatever it had to recover from.
-/

namespace CssWorkbench

/-- Some of the tokens that follow `p`, in order: identifiers that name a custom property, each
with a firm token right in front of it. -/
inductive Named : Token → List Token → List Token → Prop
  | nil {p : Token} : Named p [] []
  | skip {p t : Token} {ts us : List Token} (behind : Named t ts us) : Named p (t :: ts) us
  | take {p t : Token} {ts us : List Token} (firm : p.isFirm = true) (kind : t.kind = .ident)
      (custom : t.isCustomName = true) (behind : Named t ts us) : Named p (t :: ts) (t :: us)

variable {p t : Token} {ts us vs run rest : List Token}

/-- No token needs to be named. -/
theorem Named.none (p : Token) (ts : List Token) : Named p ts [] := by
  induction ts generalizing p with
  | nil => exact .nil
  | cons t ts ih => exact .skip (ih t)

/-- Names are found in one stretch and then in the next one. -/
theorem Named.append (h : Named p ts us) (hrest : Named (ts.getLastD p) rest vs) :
    Named p (ts ++ rest) (us ++ vs) := by
  induction h with
  | nil => exact hrest
  | @skip p t ts us _ ih =>
    refine .skip (ih ?_)
    rwa [List.getLastD_cons] at hrest
  | @take p t ts us firm kind custom _ ih =>
    refine .take firm kind custom (ih ?_)
    rwa [List.getLastD_cons] at hrest

/-- Tokens behind those that are named need not be named. -/
theorem Named.append_none (h : Named p ts us) (rest : List Token) : Named p (ts ++ rest) us := by
  have happend := h.append (Named.none _ rest)
  rwa [List.append_nil] at happend

/-- What stands in front of the first name has no names. -/
theorem Named.behind (h : Named (ts.getLastD p) rest vs) : Named p (ts ++ rest) vs :=
  (Named.none p ts).append h

/-- Blanks and comments are firm. -/
theorem isFirm_of_isTrivia (h : t.isTrivia = true) : t.isFirm = true := by
  have hkind : t.kind = .whitespace ∨ t.kind = .comment := by simpa [Token.isTrivia] using h
  rcases hkind with hk | hk <;> simp [Token.isFirm, TokenKind.isFirm, hk]

/-- A token is firm by its kind. -/
theorem isFirm_of_kind (h : t.kind.isFirm = true) : t.isFirm = true := by
  simp [Token.isFirm, h]

/-- Behind blanks and comments that follow a firm token the last token is firm. -/
theorem isFirm_getLastD (hp : p.isFirm = true) (hts : ∀ t ∈ ts, t.isTrivia = true) :
    (ts.getLastD p).isFirm = true := by
  induction ts generalizing p with
  | nil => exact hp
  | cons t ts ih =>
    rw [List.getLastD_cons]
    exact ih (isFirm_of_isTrivia (hts t List.mem_cons_self))
      fun u hu => hts u (List.mem_cons_of_mem _ hu)

/-- What an occurrence says of its name. -/
def Occurrence.labels (o : Occurrence) : String × Span := (o.name, o.nameSpan)

/-- What a name token says. -/
def Token.labels (t : Token) : String × Span := (t.value, t.span)

/-- A reference opens with `var(`, and behind blanks and comments stands its name. -/
theorem reference?_eq_some {o : Occurrence} (h : reference? t ts = some o) :
    t.isFirm = true ∧ ∃ gap name behind, ts = gap ++ name :: behind ∧
      (∀ u ∈ gap, u.isTrivia = true) ∧ name.kind = .ident ∧ name.isCustomName = true ∧
      o.labels = name.labels ∧ o.access = .read := by
  unfold reference? at h
  split at h
  · rename_i hvar
    split at h
    · rename_i name hfind
      split at h
      · rename_i hname
        obtain ⟨hkind, hcustom⟩ : name.kind = .ident ∧ name.isCustomName = true := by
          simpa [Token.is] using hname
        obtain ⟨-, gap, behind, hts, hgap⟩ := List.find?_eq_some_iff_append.mp hfind
        refine ⟨by simp [Token.isFirm, hvar], gap, name, behind, hts, ?_, hkind, hcustom, ?_, ?_⟩
        · simpa using hgap
        · rw [← Option.some.inj h]
          rfl
        · rw [← Option.some.inj h]
      · cases h
    · cases h
  · cases h

/-- A token of another kind opens no reference. -/
theorem reference?_eq_none (h : t.kind ≠ .function) (ts : List Token) : reference? t ts = none := by
  rw [reference?, if_neg (by simp [Token.isFunction, h])]

/-- A reference is found only behind a function. -/
theorem references_cons_of_kind (h : t.kind ≠ .function) (ts : List Token) :
    references (t :: ts) = references ts := by
  rw [references, reference?_eq_none h]

/-- Between `var(` and its name there is no other reference. -/
theorem references_append_of_trivia {gap : List Token} (hgap : ∀ u ∈ gap, u.isTrivia = true)
    (ts : List Token) : references (gap ++ ts) = references ts := by
  induction gap with
  | nil => rfl
  | cons t gap ih =>
    have hkind : t.kind ≠ .function := fun hk => by
      have ht := hgap t List.mem_cons_self
      simp [Token.isTrivia, hk] at ht
    rw [List.cons_append, references_cons_of_kind hkind,
      ih fun u hu => hgap u (List.mem_cons_of_mem _ hu)]

/-- The references of a run have their names in the run. -/
theorem exists_named_references (p : Token) (ts : List Token) :
    ∃ us, Named p ts us ∧ (references ts).map Occurrence.labels = us.map Token.labels := by
  induction hn : ts.length using Nat.strongRecOn generalizing p ts with
  | ind n ih =>
    cases ts with
    | nil => exact ⟨[], .nil, rfl⟩
    | cons t ts =>
      cases hfound : reference? t ts with
      | none =>
        obtain ⟨us, hnamed, hlabels⟩ := ih _ (hn ▸ Nat.lt_succ_self _) t ts rfl
        exact ⟨us, .skip hnamed, by rw [references, hfound, hlabels]⟩
      | some o =>
        obtain ⟨hfirm, gap, name, behind, rfl, hgap, hkind, hcustom, hname, -⟩ :=
          reference?_eq_some hfound
        have hlt : behind.length < n := by
          rw [← hn]
          simp only [List.length_cons, List.length_append]
          omega
        obtain ⟨us, hnamed, hlabels⟩ := ih _ hlt name behind rfl
        refine ⟨name :: us, .skip (Named.behind ?_), ?_⟩
        · exact .take (isFirm_getLastD hfirm hgap) hkind hcustom hnamed
        · rw [references, hfound, references_append_of_trivia hgap,
            references_cons_of_kind (by simp [hkind]), List.map_cons, List.map_cons, hname,
            hlabels]

end CssWorkbench
