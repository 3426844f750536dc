import Mathlib
import CssWorkbench.Proofs.Token.Coverage
import CssWorkbench.Proofs.Tree.BalancedRuns

/-!
# Matching brackets

A block stays open as long as its openers outnumber its closers, whatever their kinds, and it closes
at the first token where they come level, or at the last token of the source if they never do.
Blocks therefore nest: one that opens inside another closes no later. Where the brackets are nested
by kind, the closing token is the partner of the opener.
-/

namespace CssWorkbench

variable {tokens run behind ts : List Token} {opener t : Token}
  {i j k start stop last close : Nat}

/-! ## Counting brackets -/

/-- By how many the openers of a run outnumber its closers. -/
def bracketExcess (run : List Token) : Int :=
  (run.countP (·.kind.opens) : Int) - run.countP (·.kind.closes)

/-- The excess of two runs in a row is that of both. -/
theorem bracketExcess_append (run ts : List Token) :
    bracketExcess (run ++ ts) = bracketExcess run + bracketExcess ts := by
  simp only [bracketExcess, List.countP_append]
  omega

/-- The excess of a stretch is what is added to the excess of the tokens in front of it. -/
theorem bracketExcess_extract (h : i ≤ j) : bracketExcess (tokens.extract i j) =
    bracketExcess (tokens.take j) - bracketExcess (tokens.take i) := by
  have htake : tokens.take j = tokens.take i ++ tokens.extract i j := by
    rw [List.extract_eq_take_drop, ← List.take_add, Nat.add_sub_cancel' h]
  rw [htake, bracketExcess_append]
  omega

/-- A token that closes opens nothing. -/
theorem TokenKind.not_opens_of_closes {kind : TokenKind} (h : kind.closes = true) :
    kind.opens = false := by
  cases kind <;> first | rfl | cases h

/-- A token that opens something is not the end. -/
theorem Token.ne_eof_of_opens (h : t.kind.opens = true) : t.kind ≠ .eof := by
  intro heof
  rw [heof] at h
  cases h

/-- An opening token is one in excess. -/
theorem bracketExcess_opener (h : t.kind.opens = true) : bracketExcess [t] = 1 := by
  have hcloses : ¬ t.kind.closes = true := fun hcloses =>
    Bool.false_ne_true (TokenKind.not_opens_of_closes hcloses ▸ h)
  simp [bracketExcess, h, hcloses]

/-- A closing token is one short. -/
theorem bracketExcess_closer (h : t.kind.closes = true) : bracketExcess [t] = -1 := by
  simp [bracketExcess, h, TokenKind.not_opens_of_closes h]

/-- Any other token does not count. -/
theorem bracketExcess_other (hopens : ¬ t.kind.opens = true) (hcloses : ¬ t.kind.closes = true) :
    bracketExcess [t] = 0 := by
  simp [bracketExcess, hopens, hcloses]

/-- One more token lowers the excess by one at most, and then it is a closer. -/
theorem bracketExcess_singleton_cases (t : Token) :
    0 ≤ bracketExcess [t] ∨ bracketExcess [t] = -1 ∧ t.kind.closes = true := by
  by_cases hcloses : t.kind.closes = true
  · exact .inr ⟨bracketExcess_closer hcloses, hcloses⟩
  by_cases hopens : t.kind.opens = true
  · exact .inl (bracketExcess_opener hopens ▸ Int.one_nonneg)
  · exact .inl (Int.le_of_eq (bracketExcess_other hopens hcloses).symm)

/-! ## One step of the counter -/

/-- While the openers outnumber the closers, the counter goes on with the excess of what it has
passed. -/
theorem closeDistanceFrom_concat (hrun : 0 ≤ bracketExcess run) (inSource : t.kind ≠ .eof)
    (outnumber : 0 < bracketExcess (run ++ [t])) (ts : List Token) :
    closeDistanceFrom (bracketExcess run).toNat run.length (t :: ts) =
      closeDistanceFrom (bracketExcess (run ++ [t])).toNat (run ++ [t]).length ts := by
  rw [bracketExcess_append] at outnumber ⊢
  rw [closeDistanceFrom, List.length_append, List.length_singleton]
  by_cases hopens : t.kind.opens = true
  · have hdepth : (bracketExcess run + 1).toNat = (bracketExcess run).toNat + 1 := by omega
    rw [if_pos hopens, bracketExcess_opener hopens, hdepth]
  rw [if_neg hopens]
  by_cases hcloses : t.kind.closes = true
  · rw [bracketExcess_closer hcloses] at outnumber ⊢
    have hdepth : (bracketExcess run + -1).toNat = (bracketExcess run).toNat - 1 := by omega
    rw [if_pos hcloses, if_neg (by omega), hdepth]
  · rw [if_neg hcloses, if_neg inSource, bracketExcess_other hopens hcloses, Int.add_zero]

/-- Where the closers come level, the counter stops. -/
theorem closeDistanceFrom_level (hrun : 0 < bracketExcess run)
    (level : bracketExcess (run ++ [t]) = 0) (passed : Nat) (ts : List Token) :
    closeDistanceFrom (bracketExcess run).toNat passed (t :: ts) = passed := by
  rw [bracketExcess_append] at level
  rcases bracketExcess_singleton_cases t with hnonneg | ⟨hone, hcloses⟩
  · omega
  · rw [closeDistanceFrom, if_neg (by simp [TokenKind.not_opens_of_closes hcloses]),
      if_pos hcloses, if_pos (by omega)]

/-- In front of the end the counter stops at the token before. -/
theorem closeDistanceFrom_end (h : ∀ t ∈ ts.head?, t.kind = .eof) (depth passed : Nat) :
    closeDistanceFrom depth passed ts = passed - 1 := by
  cases ts with
  | nil => rfl
  | cons t ts => simp [closeDistanceFrom, h t rfl, TokenKind.opens, TokenKind.closes]

/-! ## Open runs -/

/-- A run of the source in which, from its first token on, the openers outnumber the closers. -/
inductive OpenRun : List Token → Prop
  | nil : OpenRun []
  | concat {run : List Token} {t : Token} (front : OpenRun run) (inSource : t.kind ≠ .eof)
      (outnumber : 0 < bracketExcess (run ++ [t])) : OpenRun (run ++ [t])

namespace OpenRun

/-- The end is not within an open run. -/
theorem kind_ne_eof (h : OpenRun run) (ht : t ∈ run) : t.kind ≠ .eof := by
  induction h with
  | nil => cases ht
  | concat _ inSource _ ih =>
    rcases List.mem_append.mp ht with hfront | hlast
    · exact ih hfront
    · rwa [List.mem_singleton.mp hlast]

/-- At every front of an open run something is open. -/
theorem bracketExcess_pos {front : List Token} (h : OpenRun run) (hfront : front <+: run)
    (hne : front ≠ []) : 0 < bracketExcess front := by
  induction h with
  | nil => exact absurd (List.prefix_nil.mp hfront) hne
  | concat _ _ outnumber ih =>
    rcases List.prefix_concat_iff.mp hfront with rfl | hshorter
    · exact outnumber
    · exact ih hshorter

/-- An open run closes no more than it opens. -/
theorem bracketExcess_nonneg (h : OpenRun run) : 0 ≤ bracketExcess run := by
  cases h with
  | nil => exact Int.le_refl 0
  | concat _ _ outnumber => exact Int.le_of_lt outnumber

/-- Behind an open run the counter stands at the excess of the run. -/
theorem closeDistance_append (h : OpenRun run) (ts : List Token) :
    closeDistance (run ++ ts) = closeDistanceFrom (bracketExcess run).toNat run.length ts := by
  induction h generalizing ts with
  | nil => rfl
  | concat front inSource outnumber ih =>
    rw [List.append_assoc, List.singleton_append, ih,
      closeDistanceFrom_concat front.bracketExcess_nonneg inSource outnumber]

/-- An open run goes on until the source ends or the closers come level. -/
theorem exists_longest (h : OpenRun run) (hpos : 0 < bracketExcess run) (ts : List Token) :
    ∃ more behind, ts = more ++ behind ∧ OpenRun (run ++ more) ∧
      ∀ t ∈ behind.head?, t.kind ≠ .eof → bracketExcess (run ++ more ++ [t]) = 0 := by
  induction ts generalizing run with
  | nil => exact ⟨[], [], rfl, by rwa [List.append_nil], fun _ hnone => by cases hnone⟩
  | cons t ts ih =>
    -- Either the run cannot take the next token, or it stays open behind it.
    by_cases hstops : t.kind ≠ .eof → bracketExcess (run ++ [t]) = 0
    · refine ⟨[], t :: ts, rfl, by rwa [List.append_nil], fun u hu => ?_⟩
      obtain rfl := Option.mem_some.mp hu
      rwa [List.append_nil]
    · obtain ⟨inSource, hlevel⟩ := Classical.not_imp.mp hstops
      have outnumber : 0 < bracketExcess (run ++ [t]) := by
        have hcases := bracketExcess_singleton_cases t
        rw [bracketExcess_append] at hlevel ⊢
        omega
      obtain ⟨more, behind, rfl, hopen, hends⟩ := ih (h.concat inSource outnumber) outnumber
      rw [List.append_assoc, List.singleton_append] at hopen hends
      exact ⟨t :: more, behind, rfl, hopen, hends⟩

end OpenRun

/-- The block that an opener starts is an open run up to where the counter stops: in front of the
token where the closers come level, or at the last token if the source ends first. -/
theorem exists_openRun (hopens : opener.kind.opens = true) (ts : List Token) :
    ∃ run behind, opener :: ts = run ++ behind ∧ OpenRun run ∧ run ≠ [] ∧
      ((∃ closer rest, behind = closer :: rest ∧ closer.kind ≠ .eof ∧
          bracketExcess (run ++ [closer]) = 0 ∧ closeDistance (opener :: ts) = run.length) ∨
        (∀ t ∈ behind.head?, t.kind = .eof) ∧ closeDistance (opener :: ts) = run.length - 1) := by
  have hone : 0 < bracketExcess [opener] := by
    rw [bracketExcess_opener hopens]
    exact Int.one_pos
  have hfirst : OpenRun [opener] := OpenRun.nil.concat (Token.ne_eof_of_opens hopens) hone
  obtain ⟨more, behind, rfl, hopen, hends⟩ := hfirst.exists_longest hone ts
  rw [List.singleton_append] at hopen hends
  refine ⟨opener :: more, behind, rfl, hopen, List.cons_ne_nil _ _, ?_⟩
  have hdistance := hopen.closeDistance_append behind
  rw [List.cons_append] at hdistance
  rw [hdistance]
  by_cases hend : ∀ t ∈ behind.head?, t.kind = .eof
  · exact .inr ⟨hend, closeDistanceFrom_end hend _ _⟩
  · cases behind with
    | nil => exact absurd (fun _ hnone => by cases hnone) hend
    | cons closer rest =>
      have hkind : closer.kind ≠ .eof := fun heof => hend fun t ht => by
        rwa [← Option.mem_some.mp ht]
      have level := hends closer rfl hkind
      have hpos := hopen.bracketExcess_pos List.prefix_rfl (List.cons_ne_nil _ _)
      exact .inl ⟨closer, rest, rfl, hkind, level, closeDistanceFrom_level hpos level _ _⟩

/-! ## The token where a block closes -/

/-- A token other than the end token stands at an index. -/
def InSource (tokens : List Token) (k : Nat) : Prop := ∃ t, tokens[k]? = some t ∧ t.kind ≠ .eof

/-- At most one token is an end token, and nothing stands behind it. -/
def EndTokenLast (tokens : List Token) : Prop := ∀ t ∈ tokens.dropLast, t.kind ≠ .eof

/-- From the opener at `i` through the token at `k`, as many brackets are closed as opened. -/
def LevelAt (tokens : List Token) (i k : Nat) : Prop :=
  i ≤ k ∧ k < tokens.length ∧ bracketExcess (tokens.extract i (k + 1)) = 0

/-- The block of the opener at `i` is open in front of `close` and comes level there, or it is open
up to the last token of the source. -/
structure ClosesAt (tokens : List Token) (i last close : Nat) : Prop where
  le : i ≤ close
  le_last : close ≤ last
  outnumber : ∀ k, i ≤ k → k < close → 0 < bracketExcess (tokens.extract i (k + 1))
  atClose : bracketExcess (tokens.extract i (close + 1)) = 0 ∨
    close = last ∧ 0 < bracketExcess (tokens.extract i (close + 1))

/-- A place in the source is a place among the tokens. -/
theorem InSource.lt_length (h : InSource tokens k) : k < tokens.length := by
  obtain ⟨t, ht, -⟩ := h
  exact (List.getElem?_eq_some_iff.mp ht).1

/-- Among the places in the source there is a last one. -/
theorem exists_last_inSource (h : InSource tokens k) :
    ∃ last, IsGreatest {k | InSource tokens k} last :=
  have hbound : BddAbove {k | InSource tokens k} := ⟨tokens.length, fun _ hk => hk.lt_length.le⟩
  hbound.exists_isGreatest_of_nonempty ⟨k, h⟩

/-- A scan has one end token, its last. -/
theorem endTokenLast_scan (source : String) : EndTokenLast (scan source) := by
  intro t ht
  rw [dropLast_scan] at ht
  exact (exists_part_of_mem_tokensFrom [] rfl ht).1

/-- In front of a token of the source all tokens are in the source. -/
theorem EndTokenLast.inSource_of_le (hend : EndTokenLast tokens) (hlast : InSource tokens last)
    (hk : k ≤ last) : InSource tokens k := by
  rcases Nat.lt_or_eq_of_le hk with hlt | rfl
  · have hlength := hlast.lt_length
    have hget : tokens[k]? = some tokens[k] := List.getElem?_eq_getElem (by omega)
    refine ⟨tokens[k], hget, hend _ (List.mem_of_getElem? (i := k) ?_)⟩
    rw [List.getElem?_dropLast, if_pos (by omega), hget]
  · exact hlast

/-- Places behind a front are counted from its end. -/
theorem getElem?_of_drop (h : tokens.drop i = ts) (n : Nat) : tokens[i + n]? = ts[n]? := by
  rw [← h, List.getElem?_drop]

/-- Where a run starts at `i`, what stands behind it is at the place where it ends. -/
theorem getElem?_behind (hdrop : tokens.drop i = run ++ behind) :
    tokens[i + run.length]? = behind.head? := by
  rw [getElem?_of_drop hdrop, List.getElem?_append_right (Nat.le_refl _), Nat.sub_self,
    List.head?_eq_getElem?]

/-- The places of an open run are in the source. -/
theorem OpenRun.inSource (h : OpenRun run) (hdrop : tokens.drop i = run ++ behind)
    (hk : k < run.length) : InSource tokens (i + k) := by
  refine ⟨run[k], ?_, h.kind_ne_eof (List.getElem_mem _)⟩
  rw [getElem?_of_drop hdrop, List.getElem?_append_left hk, List.getElem?_eq_getElem]

/-- An open run is open from its first token through any of its tokens. -/
theorem OpenRun.bracketExcess_extract_pos (h : OpenRun run)
    (hdrop : tokens.drop i = run ++ behind) (hi : i ≤ k) (hk : k < i + run.length) :
    0 < bracketExcess (tokens.extract i (k + 1)) := by
  rw [List.extract_eq_take_drop, hdrop, List.take_append_of_le_length (by omega)]
  refine h.bracketExcess_pos (List.take_prefix _ _) (List.ne_nil_of_length_pos ?_)
  rw [List.length_take]
  omega

/-- The counter stops where the block closes. -/
theorem closesAt_matchingClose (hend : EndTokenLast tokens)
    (hlast : IsGreatest {k | InSource tokens k} last) (hi : tokens[i]? = some opener)
    (hopens : opener.kind.opens = true) : ClosesAt tokens i last (matchingClose tokens i) := by
  obtain ⟨hlt, hget⟩ := List.getElem?_eq_some_iff.mp hi
  have hcons := List.drop_eq_getElem_cons hlt
  rw [hget] at hcons
  obtain ⟨run, behind, hdrop, hopen, hne, hstops⟩ := exists_openRun hopens (tokens.drop (i + 1))
  rw [← hcons] at hdrop hstops
  have hpos := List.length_pos_iff.mpr hne
  rw [matchingClose]
  rcases hstops with ⟨closer, rest, rfl, hkind, level, hdistance⟩ | ⟨hends, hdistance⟩
  · have htake : tokens.extract i (i + run.length + 1) = run ++ [closer] := by
      rw [List.extract_eq_take_drop, hdrop, Nat.add_assoc, Nat.add_sub_cancel_left,
        List.take_length_add_append]
      rfl
    rw [hdistance]
    exact {
      le := Nat.le_add_right _ _
      le_last := hlast.2 ⟨closer, getElem?_behind hdrop, hkind⟩
      outnumber := fun k hik hk => hopen.bracketExcess_extract_pos hdrop hik hk
      atClose := .inl (htake ▸ level) }
  · have hle : i + (run.length - 1) ≤ last := hlast.2 (hopen.inSource hdrop (by omega))
    have hlt_last : last < i + run.length := by
      by_contra hge
      obtain ⟨t, ht, hkind⟩ := hend.inSource_of_le hlast.1 (Nat.le_of_not_lt hge)
      exact hkind (hends t (getElem?_behind hdrop ▸ ht))
    rw [hdistance]
    exact {
      le := Nat.le_add_right _ _
      le_last := hle
      outnumber := fun k hik hk => hopen.bracketExcess_extract_pos hdrop hik (by omega)
      atClose := .inr ⟨by omega,
        hopen.bracketExcess_extract_pos hdrop (Nat.le_add_right _ _) (by omega)⟩ }

/-- Behind the last token of the source the count does not change. -/
theorem bracketExcess_extract_of_last_le (hlast : IsGreatest {k | InSource tokens k} last)
    (hi : i ≤ last) (hk : last ≤ k) : bracketExcess (tokens.extract i (k + 1)) =
      bracketExcess (tokens.extract i (last + 1)) := by
  have hends : ∀ t ∈ tokens.extract (last + 1) (k + 1), t.kind = .eof := by
    intro t ht
    obtain ⟨n, hn⟩ := List.mem_iff_getElem?.mp (List.mem_of_mem_take ht)
    by_contra hkind
    have hle : last + 1 + n ≤ last := hlast.2 ⟨t, List.getElem?_drop ▸ hn, hkind⟩
    omega
  have hzero : bracketExcess (tokens.extract (last + 1) (k + 1)) = 0 := by
    have hopens : (tokens.extract (last + 1) (k + 1)).countP (·.kind.opens) = 0 :=
      List.countP_eq_zero.mpr fun t ht => by simp [hends t ht, TokenKind.opens]
    have hcloses : (tokens.extract (last + 1) (k + 1)).countP (·.kind.closes) = 0 :=
      List.countP_eq_zero.mpr fun t ht => by simp [hends t ht, TokenKind.closes]
    rw [bracketExcess, hopens, hcloses, Int.sub_self]
  rw [bracketExcess_extract (by omega)] at hzero ⊢
  rw [bracketExcess_extract (by omega)]
  omega

namespace ClosesAt

/-- A block closes where the brackets first come level, or at the last token of the source if they
never do. -/
theorem isLeast_or (h : ClosesAt tokens i last close)
    (hlast : IsGreatest {k | InSource tokens k} last) :
    IsLeast {k | LevelAt tokens i k} close ∨ (∀ k, ¬ LevelAt tokens i k) ∧ close = last := by
  have hlength := hlast.1.lt_length
  rcases h.atClose with level | ⟨rfl, hopen⟩
  · refine .inl ⟨⟨h.le, Nat.lt_of_le_of_lt h.le_last hlength, level⟩, ?_⟩
    rintro k ⟨hik, -, hk⟩
    by_contra hlt
    have hpos := h.outnumber k hik (Nat.lt_of_not_le hlt)
    omega
  · refine .inr ⟨?_, rfl⟩
    rintro k ⟨hik, -, hk⟩
    rcases Nat.lt_or_ge k close with hlt | hge
    · have hpos := h.outnumber k hik hlt
      omega
    · rw [bracketExcess_extract_of_last_le hlast h.le hge] at hk
      omega

/-- A block that opens inside another closes no later. -/
theorem nested {closeInner : Nat} (h : ClosesAt tokens i last close)
    (hinner : ClosesAt tokens j last closeInner) (hij : i < j) (hj : j ≤ close) :
    closeInner ≤ close := by
  by_contra hlt
  -- The outer block comes level at `close`; there the inner one is still open.
  have hle := hinner.le_last
  have level : bracketExcess (tokens.extract i (close + 1)) = 0 := by
    rcases h.atClose with level | ⟨rfl, -⟩
    · exact level
    · omega
  have hinside := hinner.outnumber close hj (by omega)
  have hbefore := h.outnumber (j - 1) (by omega) (by omega)
  rw [bracketExcess_extract (by omega)] at level hinside hbefore
  rw [Nat.sub_add_cancel (by omega)] at hbefore
  omega

end ClosesAt

/-! ## Partners -/

/-- Two brackets of one kind are partners if the brackets between them are balanced. -/
structure Partners (tokens : List Token) (i j : Nat) : Prop where
  lt : i < j
  pair : ∃ opener closer, tokens[i]? = some opener ∧ tokens[j]? = some closer ∧
    opener.kind.closer? = some closer.kind
  inside : Balanced (tokens.extract (i + 1) j)

/-- In a balanced run each opener has a partner. -/
theorem Balanced.exists_partner {front : List Token} (h : Balanced run)
    (hrun : run = front ++ opener :: ts) (hopens : opener.kind.opens = true) :
    ∃ inner closer behind, ts = inner ++ closer :: behind ∧
      opener.kind.closer? = some closer.kind ∧ Balanced inner := by
  induction h generalizing front ts with
  | nil => simp at hrun
  | @plain t run plain _ ih =>
    rcases List.cons_eq_append_iff.mp hrun with ⟨rfl, hcons⟩ | ⟨front, rfl, hbehind⟩
    · obtain ⟨rfl, -⟩ := List.cons.inj hcons
      rw [plain.opens] at hopens
      cases hopens
    · exact ih hbehind
  | @block first closer inner run pair inside _ ihInside ihBehind =>
    have hcloser : closer ≠ opener := by
      rintro rfl
      rw [(TokenKind.opens_of_closer? pair).2.1] at hopens
      cases hopens
    rcases List.cons_eq_append_iff.mp hrun with ⟨rfl, hcons⟩ | ⟨front, rfl, hbehind⟩
    · obtain ⟨rfl, rfl⟩ := List.cons.inj hcons
      exact ⟨inner, closer, run, rfl, pair, inside⟩
    rcases List.append_eq_append_iff.mp hbehind with ⟨more, rfl, hmore⟩ | ⟨more, rfl, hmore⟩
    · -- The opener stands behind the block.
      rcases List.cons_eq_append_iff.mp hmore with ⟨-, hcons⟩ | ⟨front, rfl, hrest⟩
      · exact absurd (List.cons.inj hcons).1.symm hcloser
      · exact ihBehind hrest
    · -- The opener stands in the block.
      rcases List.cons_eq_append_iff.mp hmore with ⟨-, hcons⟩ | ⟨rest, rfl, hrest⟩
      · exact absurd (List.cons.inj hcons).1 hcloser
      · obtain ⟨inner, closer, behind, rfl, hpair, hinner⟩ := ihInside rfl
        exact ⟨inner, closer, behind ++ _, by simpa using hrest, hpair, hinner⟩

/-- From an opener on stand what it encloses, its partner and the rest. -/
theorem partners_iff : Partners tokens i j ↔ ∃ opener closer, ∃ inner behind : List Token,
    tokens.drop i = opener :: (inner ++ closer :: behind) ∧
      opener.kind.closer? = some closer.kind ∧ Balanced inner ∧ j = i + (inner.length + 1) := by
  constructor
  · rintro ⟨hij, ⟨opener, closer, hopener, hcloser, pair⟩, inside⟩
    obtain ⟨hi, rfl⟩ := List.getElem?_eq_some_iff.mp hopener
    obtain ⟨hj, rfl⟩ := List.getElem?_eq_some_iff.mp hcloser
    have hbehind := List.take_append_drop (j - (i + 1)) (tokens.drop (i + 1))
    rw [List.drop_drop, Nat.add_sub_cancel' hij, List.drop_eq_getElem_cons hj] at hbehind
    refine ⟨_, _, _, tokens.drop (j + 1), ?_, pair, inside, ?_⟩
    · rw [List.drop_eq_getElem_cons hi, List.extract_eq_take_drop, hbehind]
    · rw [List.length_take, List.length_drop]
      omega
  · rintro ⟨opener, closer, inner, behind, hdrop, pair, inside, rfl⟩
    have hbehind : tokens.drop (i + 1) = inner ++ closer :: behind := by
      rw [← List.drop_drop, hdrop]
      rfl
    have hlength : i + (inner.length + 1) - (i + 1) = inner.length := by omega
    refine ⟨by omega, ⟨opener, closer, getElem?_of_drop hdrop 0, ?_, pair⟩, ?_⟩
    · rw [getElem?_of_drop hdrop, List.getElem?_cons_succ,
        List.getElem?_append_right (Nat.le_refl _), Nat.sub_self]
      rfl
    · rwa [List.extract_eq_take_drop, hbehind, hlength, List.take_left]

/-- The counter stops at the partner of an opener. -/
theorem Partners.matchingClose_eq (h : Partners tokens i j) : matchingClose tokens i = j := by
  obtain ⟨opener, closer, inner, behind, hdrop, pair, inside, rfl⟩ := partners_iff.mp h
  rw [matchingClose, hdrop, inside.closeDistance_block pair]

/-- In a balanced stretch the partner of an opener is in the stretch. -/
theorem Balanced.exists_partner_extract (h : Balanced (tokens.extract start stop))
    (hstart : start ≤ i) (hstop : i < stop) (hi : tokens[i]? = some opener)
    (hopens : opener.kind.opens = true) : ∃ j < stop, Partners tokens i j := by
  obtain ⟨hlt, rfl⟩ := List.getElem?_eq_some_iff.mp hi
  have hlength : stop - start = i - start + (stop - (i + 1) + 1) := by omega
  rw [List.extract_eq_take_drop, hlength, List.take_add, List.drop_drop,
    Nat.add_sub_cancel' hstart, List.drop_eq_getElem_cons hlt, List.take_succ_cons] at h
  obtain ⟨inner, closer, behind, htake, pair, inside⟩ := h.exists_partner rfl hopens
  have hbehind := List.take_append_drop (stop - (i + 1)) (tokens.drop (i + 1))
  rw [htake, List.append_assoc, List.cons_append] at hbehind
  have hwithin := List.length_take_le (stop - (i + 1)) (tokens.drop (i + 1))
  rw [htake, List.length_append, List.length_cons] at hwithin
  refine ⟨i + (inner.length + 1), by omega, partners_iff.mpr ?_⟩
  exact ⟨_, closer, inner, _, by rw [List.drop_eq_getElem_cons hlt, hbehind], pair, inside, rfl⟩

/-! ## The main statement -/

/-- The block of an opener closes at a token of the source, at the opener or behind it. This is the
first at which as many brackets are closed as opened since the opener, or the last token of the
source if there is none. A block that opens inside closes no later; and in a stretch where the
brackets are balanced, the block closes at the one partner of its opener. -/
theorem blocks_close_and_nest (hend : EndTokenLast tokens) (hi : tokens[i]? = some opener)
    (hopens : opener.kind.opens = true) :
    ∃ last, IsGreatest {k | InSource tokens k} last ∧
      (i ≤ matchingClose tokens i ∧ matchingClose tokens i ≤ last) ∧
      (IsLeast {k | LevelAt tokens i k} (matchingClose tokens i) ∨
        (∀ k, ¬ LevelAt tokens i k) ∧ matchingClose tokens i = last) ∧
      (∀ j inner, tokens[j]? = some inner → inner.kind.opens = true → i < j →
        j ≤ matchingClose tokens i → matchingClose tokens j ≤ matchingClose tokens i) ∧
      ∀ start stop, Balanced (tokens.extract start stop) → start ≤ i → i < stop →
        matchingClose tokens i < stop ∧ ∀ j, Partners tokens i j ↔ j = matchingClose tokens i := by
  obtain ⟨last, hlast⟩ := exists_last_inSource ⟨opener, hi, Token.ne_eof_of_opens hopens⟩
  have hcloses := closesAt_matchingClose hend hlast hi hopens
  refine ⟨last, hlast, ⟨hcloses.le, hcloses.le_last⟩, hcloses.isLeast_or hlast, ?_, ?_⟩
  · intro j inner hj hinner hij hle
    exact hcloses.nested (closesAt_matchingClose hend hlast hj hinner) hij hle
  · intro start stop hbalanced hstart hstop
    obtain ⟨j, hj, hpartners⟩ := hbalanced.exists_partner_extract hstart hstop hi hopens
    have heq := hpartners.matchingClose_eq
    exact ⟨heq ▸ hj, fun j' => ⟨fun h => h.matchingClose_eq.symm, fun h => h ▸ heq ▸ hpartners⟩⟩

/-- The brace at the front is never closed, so its block reaches to the last token. The function in
it is closed by its parenthesis, and the square bracket in that one before. -/
theorem blocks_close_and_nest_of_unclosed :
    let tokens := scan "\x7bf(a[])"
    EndTokenLast tokens ∧
      tokens.map (·.kind.opens) = [true, true, false, true, false, false, false] ∧
      Balanced (tokens.extract 1 6) ∧
      IsGreatest {k | InSource tokens k} (matchingClose tokens 0) ∧ (∀ k, ¬ LevelAt tokens 0 k) ∧
      IsLeast {k | LevelAt tokens 1 k} (matchingClose tokens 1) ∧
      matchingClose tokens 3 ≤ matchingClose tokens 1 ∧
      Partners tokens 1 (matchingClose tokens 1) := by
  have hscan : scan "\x7bf(a[])" = [⟨.lbrace, ⟨0, 1⟩, "\x7b"⟩, ⟨.function, ⟨1, 3⟩, "f"⟩,
    ⟨.ident, ⟨3, 4⟩, "a"⟩, ⟨.lbracket, ⟨4, 5⟩, "["⟩, ⟨.rbracket, ⟨5, 6⟩, "]"⟩,
    ⟨.rparen, ⟨6, 7⟩, ")"⟩, .eof 7] := by cbv
  have hend := endTokenLast_scan "\x7bf(a[])"
  rw [hscan] at hend ⊢
  intro tokens
  have plain : Token.IsPlain ⟨.ident, ⟨3, 4⟩, "a"⟩ := ⟨rfl, rfl, by decide⟩
  have hinner := @Balanced.block ⟨.lbracket, ⟨4, 5⟩, "["⟩ ⟨.rbracket, ⟨5, 6⟩, "]"⟩ [] [] rfl
    .nil .nil
  have hbalanced := @Balanced.block ⟨.function, ⟨1, 3⟩, "f"⟩ ⟨.rparen, ⟨6, 7⟩, ")"⟩ _ [] rfl
    (.plain plain hinner) .nil
  obtain ⟨last, hlast, -, hbrace, -⟩ := blocks_close_and_nest hend (i := 0) rfl rfl
  obtain ⟨_, -, -, hfunction, hnested, hpartners⟩ := blocks_close_and_nest hend (i := 1) rfl rfl
  have hlevel := hfunction.resolve_right fun hnone => hnone.1 5 ⟨by decide, by decide, by decide⟩
  obtain ⟨hnever, heq⟩ := hbrace.resolve_left fun hleast => absurd hleast.1.2.2 (by decide)
  exact ⟨hend, rfl, hbalanced, heq ▸ hlast, hnever, hlevel,
    hnested 3 _ rfl rfl (by decide) (by decide),
    ((hpartners 1 6 hbalanced (by decide) (by decide)).2 _).mpr rfl⟩

/-- The counter does not tell the kinds of brackets apart. -/
example : matchingClose (scan "(a]b)") 0 = 2 := by cbv

end CssWorkbench
