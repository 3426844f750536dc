import CssWorkbench.Proofs.Tree.Reading
import CssWorkbench.Proofs.Tree.Runs

/-!
# Reading goes forward and never gets stuck

Each decision of the parser takes tokens off the front and leaves the others as they are, and for
all tokens one of the decisions applies. Outside blocks a reading goes on to the end of the source.
-/

namespace CssWorkbench

variable {stop n e : Nat} {t : Token} {ts left rest : List Token} {nodes : List Node}
  {first errors : List SyntaxError}

/-- A semicolon, if there is one, and what follows it make up the tokens. -/
theorem takeSemicolon_append (ts : List Token) :
    (takeSemicolon ts).1.toList ++ (takeSemicolon ts).2 = ts := by
  cases ts with
  | nil => rfl
  | cons t ts =>
    rw [takeSemicolon]
    split <;> rfl

/-- What follows a semicolon is the end of the tokens. -/
theorem takeSemicolon_suffix (ts : List Token) : (takeSemicolon ts).2 <:+ ts :=
  ⟨_, takeSemicolon_append ts⟩

/-- What follows a broken statement is the end of the tokens. -/
theorem afterBroken_suffix (n : Nat) (ts : List Token) : afterBroken n ts <:+ ts := by
  cases ts with
  | nil => exact List.suffix_refl _
  | cons t ts =>
    rw [afterBroken]
    split
    · exact List.suffix_cons t ts
    · exact List.suffix_refl _

/-- What follows a skipped block is the end of the tokens. -/
theorem skipBlock_suffix (stop depth : Nat) (ts : List Token) :
    (skipBlock stop depth ts).2 <:+ ts := by
  fun_induction skipBlock stop depth ts with
  | case1 => exact List.suffix_refl _
  | case2 depth t ts _ ih | case4 depth t ts _ _ ih | case5 depth t ts _ _ ih =>
    exact ih.trans (List.suffix_cons t ts)
  | case3 depth t ts => exact List.suffix_cons t ts

/-- What follows an at-rule is the end of the tokens. -/
theorem ReadsStatement.suffix {node : Node} (h : ReadsStatement stop t ts node left errors) :
    left <:+ ts := by
  cases h with
  | ended run => exact (List.suffix_cons _ _).trans (takeRun_suffix run)
  | broken run => exact takeRun_suffix run

/-- What follows the head of a rule is the end of the tokens. -/
theorem Heads.suffix {opener : Token} {inner : List Token} {node : List Node → Span → Node}
    (h : Heads n t ts opener inner node) : inner <:+ ts := by
  cases h with
  | atRule _ run => exact (List.suffix_cons _ _).trans (takeRun_suffix run)
  | bare => exact List.suffix_refl _
  | ruleset _ _ _ run => exact (List.suffix_cons _ _).trans (takeRun_suffix run)

/-- The value of a declaration and what is left behind it stand behind its name. -/
theorem value_suffix {colon : Token} {behindColon run : List Token}
    (gap : ts.dropWhile (·.is .whitespace) = colon :: behindColon)
    (value : takeValue (behindColon.dropWhile (·.is .whitespace)) = (run, left)) :
    run ++ left <:+ ts := by
  have hcolon : colon :: behindColon <:+ ts := gap ▸ List.dropWhile_suffix _
  rw [← takeRun_eq_append value]
  exact (List.dropWhile_suffix _).trans ((List.suffix_cons _ _).trans hcolon)

/-- What follows a declaration is the end of the tokens. -/
theorem declaration_suffix {colon : Token} {behindColon run : List Token}
    (gap : ts.dropWhile (·.is .whitespace) = colon :: behindColon)
    (value : takeValue (behindColon.dropWhile (·.is .whitespace)) = (run, left)) :
    (takeSemicolon left).2 <:+ ts :=
  (takeSemicolon_suffix left).trans ((List.suffix_append run left).trans (value_suffix gap value))

/-- The parser leaves tokens from the end of those it was given. -/
theorem Reads.suffix (h : Reads stop n ts nodes e rest errors) : rest <:+ ts := by
  induction h with
  | finish | unclosed => exact List.suffix_refl _
  | close => exact List.suffix_cons _ _
  | stray _ _ ih | pass _ _ ih | comment _ _ ih => exact ih.trans (List.suffix_cons _ _)
  | declaration _ gap _ value _ ih =>
    exact (ih.trans (declaration_suffix gap value)).trans (List.suffix_cons _ _)
  | statement _ rule _ ih => exact (ih.trans rule.suffix).trans (List.suffix_cons _ _)
  | block head _ _ _ ihBody ih =>
    exact ((ih.trans ihBody).trans head.suffix).trans (List.suffix_cons _ _)
  | deepBlock head _ _ ih =>
    exact ((ih.trans (skipBlock_suffix ..)).trans head.suffix).trans (List.suffix_cons _ _)
  | broken _ _ _ run _ _ ih =>
    exact ((ih.trans (afterBroken_suffix ..)).trans (takeRun_suffix run)).trans
      (List.suffix_cons _ _)

/-- An at-rule goes on as a statement or with a block. -/
theorem exists_statement_or_heads (stop n : Nat) {t : Token} (keyword : t.kind = .atKeyword)
    (ts : List Token) :
    (∃ node left errors, ReadsStatement stop t ts node left errors) ∨
      ∃ opener inner node, Heads n t ts opener inner node := by
  obtain ⟨prelude, left, run⟩ : ∃ prelude left, takePrelude 0 ts = (prelude, left) := ⟨_, _, rfl⟩
  cases left with
  | nil => exact .inl ⟨_, _, _, .broken run (by simp)⟩
  | cons u left =>
    have halts : haltsPrelude u.kind = true := (takeRun_inside_zero run).2
    by_cases hsemi : u.kind = .semicolon
    · exact .inl ⟨_, _, _, .ended run hsemi⟩
    by_cases hbrace : u.kind = .lbrace
    · exact .inr ⟨_, _, _, .atRule keyword run hbrace⟩
    · refine .inl ⟨_, _, _, .broken run ?_⟩
      intro v hv
      obtain rfl : u = v := by simpa using hv
      revert halts hsemi hbrace
      cases u.kind <;> simp [haltsPrelude]


/-- A ruleset goes on to its block or breaks off. -/
theorem exists_heads_or_broken (n : Nat) {t : Token} {ts : List Token}
    (leads : t.kind.leads = false) (notDeclared : 0 < n → ¬ StartsDeclaration t ts) :
    (∃ opener inner node, Heads n t ts opener inner node) ∨ (t.kind ≠ .lbrace ∧ ∃ head left,
      takePrelude (t.kind.inlineDepth 0) ts = (head, left) ∧ ∀ u ∈ left.head?, u.kind ≠ .lbrace) := by
  by_cases hbrace : t.kind = .lbrace
  · exact .inl ⟨_, _, _, .bare hbrace⟩
  obtain ⟨head, left, run⟩ :
    ∃ head left, takePrelude (t.kind.inlineDepth 0) ts = (head, left) := ⟨_, _, rfl⟩
  by_cases hopen : ∃ u ∈ left.head?, u.kind = .lbrace
  · obtain ⟨u, hu, hk⟩ := hopen
    obtain ⟨us, rfl⟩ := List.head?_eq_some_iff.mp hu
    exact .inl ⟨_, _, _, .ruleset leads hbrace notDeclared run hk⟩
  · exact .inr ⟨hbrace, head, left, run, fun u hu hk => hopen ⟨u, hu, hk⟩⟩

/-- Every reading comes to an end where no tokens are left. -/
theorem exists_reads_nil (stop n : Nat) :
    ∃ nodes e rest errors, Reads stop n [] nodes e rest errors := by
  cases n with
  | zero => exact ⟨_, _, _, _, .finish⟩
  | succ n => exact ⟨_, _, _, _, .unclosed⟩

/-- The parser has an answer for all tokens: one of the constructors always applies. -/
theorem exists_reads (stop n : Nat) (ts : List Token) :
    ∃ nodes e rest errors, Reads stop n ts nodes e rest errors := by
  induction hlength : ts.length using Nat.strongRecOn generalizing n ts with
  | ind length ih =>
    subst hlength
    cases ts with
    | nil => exact exists_reads_nil stop n
    | cons t ts =>
      have hshort : ∀ {us : List Token}, us <:+ ts → ∀ m,
          ∃ nodes e rest errors, Reads stop m us nodes e rest errors :=
        fun hsuffix m => ih _ (Nat.lt_succ_of_le hsuffix.length_le) m _ rfl
      have hblock : (∃ opener inner node, Heads n t ts opener inner node) →
          ∃ nodes e rest errors, Reads stop n (t :: ts) nodes e rest errors := by
        rintro ⟨opener, inner, node, head⟩
        by_cases hdeep : n < maxNesting
        · obtain ⟨_, _, left, _, hbody⟩ := hshort head.suffix (n + 1)
          obtain ⟨_, _, _, _, hbehind⟩ := hshort (hbody.suffix.trans head.suffix) n
          exact ⟨_, _, _, _, .block head hdeep hbody hbehind⟩
        · obtain ⟨_, _, _, _, hbehind⟩ :=
            hshort ((skipBlock_suffix stop 1 inner).trans head.suffix) n
          exact ⟨_, _, _, _, .deepBlock head (Nat.not_lt.mp hdeep) hbehind⟩
      have hself := hshort (List.suffix_refl ts) n
      by_cases hpass : Passed n t.kind
      · obtain ⟨_, _, _, _, h⟩ := hself
        exact ⟨_, _, _, _, .pass hpass h⟩
      by_cases hcomment : t.kind = .comment
      · obtain ⟨_, _, _, _, h⟩ := hself
        exact ⟨_, _, _, _, .comment hcomment h⟩
      by_cases hkeyword : t.kind = .atKeyword
      · rcases exists_statement_or_heads stop n hkeyword ts with ⟨_, left, _, hrule⟩ | hhead
        · obtain ⟨_, _, _, _, h⟩ := hshort hrule.suffix n
          exact ⟨_, _, _, _, .statement hkeyword hrule h⟩
        · exact hblock hhead
      by_cases hclose : t.kind = .rbrace
      · cases n with
        | zero =>
          obtain ⟨_, _, _, _, h⟩ := hself
          exact ⟨_, _, _, _, .stray (by rw [hclose]; exact .blockEnd) h⟩
        | succ n => exact ⟨_, _, _, _, .close hclose⟩
      by_cases hsemi : t.kind = .semicolon
      · cases n with
        | zero =>
          obtain ⟨_, _, _, _, h⟩ := hself
          exact ⟨_, _, _, _, .stray (by rw [hsemi]; exact .semicolon) h⟩
        | succ n => exact absurd (.inr (.inr (.inr ⟨hsemi, Nat.succ_pos n⟩))) hpass
      have hleads : t.kind.leads = false := by
        rw [Passed, not_or, not_or, not_or] at hpass
        revert hpass hcomment hkeyword hclose hsemi
        cases t.kind <;> simp [TokenKind.leads]
      by_cases hdecl : 0 < n ∧ StartsDeclaration t ts
      · obtain ⟨hn, hkind, colon, behindColon, gap, hcolon⟩ := hdecl
        obtain ⟨n, rfl⟩ := Nat.exists_eq_succ_of_ne_zero (Nat.pos_iff_ne_zero.mp hn)
        obtain ⟨_, _, _, _, h⟩ := hshort (declaration_suffix gap rfl) (n + 1)
        exact ⟨_, _, _, _, .declaration hkind gap hcolon rfl h⟩
      have hnone : 0 < n → ¬ StartsDeclaration t ts := fun hn hd => hdecl ⟨hn, hd⟩
      rcases exists_heads_or_broken n hleads hnone with hhead | ⟨hbrace, _, left, run, hno⟩
      · exact hblock hhead
      · obtain ⟨_, _, _, _, h⟩ :=
          hshort ((afterBroken_suffix n left).trans (takeRun_suffix run)) n
        exact ⟨_, _, _, _, .broken hleads hbrace hnone run hno h⟩

/-- Outside blocks a reading goes on to the end of the source. -/
theorem Reads.eq_nil_of_outside (h : Reads stop n ts nodes e rest errors) (hn : n = 0) :
    rest = [] ∧ e = stop := by
  induction h with
  | finish => exact ⟨rfl, rfl⟩
  | unclosed | close | declaration => exact absurd hn (Nat.succ_ne_zero _)
  | stray _ _ ih | pass _ _ ih | comment _ _ ih | statement _ _ _ ih | block _ _ _ _ _ ih
  | deepBlock _ _ _ ih | broken _ _ _ _ _ _ ih => exact ih hn

end CssWorkbench
