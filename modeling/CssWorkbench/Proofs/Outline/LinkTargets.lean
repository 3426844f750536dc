import Mathlib
import CssWorkbench.Outline.Link
import CssWorkbench.Proofs.Custom.ExchangeEdits
import CssWorkbench.Proofs.Token.TargetText
import CssWorkbench.Proofs.Tree.StandingRuns

/-!
# Links stand in order on their targets

Each link of a stylesheet is found at a token of its own, an unquoted url or a string, and its span
lies in that token. The tokens that a tree keeps stand in the order of the source, so that the links
do as well. Without escapes the span holds the target as it is written; only the body of a string
holds the blanks around its target as well.
-/

namespace CssWorkbench

variable {source : String} {start stop : Nat} {t s : Token} {ts us gap : List Token}
  {text : List Char} {span : Span} {l : Link} {nodes : List Node}

/-! ## The text under a link -/

/-- The span holds a text of the source. -/
def Holds (source : String) (span : Span) (text : List Char) : Prop :=
  ∃ before behind, source.toList = before ++ text ++ behind ∧
    span = ⟨Text.byteLength before, Text.byteLength before + Text.byteLength text⟩

/-- The text of a span is what the span holds. -/
theorem Holds.text_eq (h : Holds source span text) : span.text source = String.ofList text := by
  obtain ⟨before, behind, hsource, rfl⟩ := h
  rw [Span.text, hsource, Span.chars_append]

/-- A span that holds something is not empty. -/
theorem Holds.start_lt (h : Holds source span text) (hne : text ≠ []) : span.start < span.stop := by
  obtain ⟨before, behind, -, rfl⟩ := h
  have hpos := Nat.pos_iff_ne_zero.mpr (mt Text.byteLength_eq_zero_iff.mp hne)
  exact Nat.lt_add_of_pos_right hpos

/-- A string is closed if it ends with the quote that opens it. -/
theorem stringBody_eq {quote : Char} {rest : List Char}
    (htext : t.span.chars source.toList = quote :: rest) : t.stringBody source =
      ⟨t.start + 1, if rest.getLast? = some quote then t.stop - 1 else t.stop⟩ := by
  rcases List.eq_nil_or_concat rest with rfl | ⟨init, c, rfl⟩
  · simp [Token.stringBody, htext]
  · rw [List.concat_eq_append] at htext ⊢
    have hlast : (quote :: (init ++ [c])).getLast? = some c := by
      rw [← List.cons_append, List.getLast?_concat]
    simp [Token.stringBody, htext, hlast]

/-- Between its quotes a string holds its value. -/
theorem holds_stringBody (hplain : '\\' ∉ source.toList) (ht : t ∈ tokensFrom 0 source.toList)
    (hkind : t.kind = .string) :
    Holds source (t.stringBody source) t.value.toList ∧
      t.span.covers (t.stringBody source) = true := by
  obtain ⟨before, quote, close, behind, hsource, hvalue, hclose, hsize, hstart, hstop⟩ :=
    exists_parts_of_string hplain ht hkind
  have htext : t.span.chars source.toList = quote :: (t.value.toList ++ close) := by
    have htext := text_of_toList_eq hsource hstart hstop
    rwa [Token.text, Span.text, String.ofList_inj] at htext
  have hbody : t.stringBody source = ⟨t.start + 1, t.start + 1 + Text.byteLength t.value.toList⟩ ∧
      t.start + 1 + Text.byteLength t.value.toList ≤ t.stop := by
    rw [Text.byteLength_cons, Text.byteLength_append, hsize] at hstop
    rw [stringBody_eq htext]
    rcases hclose with rfl | rfl
    · have hopen : (t.value.toList ++ []).getLast? ≠ some quote := fun hlast =>
        hvalue (List.mem_of_getLast? (by rwa [List.append_nil] at hlast))
      rw [if_neg hopen, Span.mk.injEq]
      simp at hstop
      omega
    · rw [if_pos List.getLast?_concat, Span.mk.injEq]
      simp [hsize] at hstop
      omega
  obtain ⟨hspan, hle⟩ := hbody
  have hquote : Text.byteLength (before ++ [quote]) = t.start + 1 := by simp [hstart, hsize]
  rw [hspan]
  exact ⟨⟨before ++ [quote], close ++ behind, by simp [hsource], by rw [hquote]⟩,
    Span.covers_iff.mpr ⟨Nat.le_succ _, hle⟩⟩

/-- The body of a url is what stands behind its first parenthesis, without the blanks around it. -/
theorem urlBody_eq {front inner close : List Char} (hfront : '(' ∉ front)
    (hclose : close = [')'] ∨ close = [] ∧ ')' ∉ inner)
    (htext : t.span.chars source.toList = front ++ '(' :: (inner ++ close)) : t.urlBody source =
      ⟨t.start + (Text.byteLength front + 1 + Text.byteLength (inner.takeWhile Text.isBlank)),
        t.start + (Text.byteLength front + 1 + Text.byteLength (inner.takeWhile Text.isBlank)) +
          Text.byteLength (Text.trim inner)⟩ := by
  have hdrop : (front ++ '(' :: (inner ++ close)).dropWhile (· ≠ '(') = '(' :: (inner ++ close) := by
    rw [List.dropWhile_append_of_pos fun c hc => by simpa using ne_of_mem_of_not_mem hc hfront]
    rfl
  have hinner : (if (front ++ '(' :: (inner ++ close)).getLast? = some ')' then
      (inner ++ close).dropLast else inner ++ close) = inner := by
    rcases hclose with rfl | ⟨rfl, hnone⟩
    · rw [if_pos (by rw [← List.cons_append, ← List.append_assoc, List.getLast?_concat]),
        List.dropLast_concat]
    · have hopen : (front ++ '(' :: (inner ++ [])).getLast? ≠ some ')' := by
        rw [List.append_nil, List.getLast?_append_of_ne_nil _ (List.cons_ne_nil _ _)]
        intro hlast
        simpa [hnone] using List.mem_of_getLast? hlast
      rw [if_neg hopen, List.append_nil]
  have hlead : Text.byteLength (front ++ '(' :: (inner ++ close)) -
      Text.byteLength (inner ++ close) = Text.byteLength front + 1 := by
    have hparen : '('.utf8Size = 1 := rfl
    simp only [Text.byteLength_append, Text.byteLength_cons, hparen]
    omega
  simp only [Token.urlBody, htext, hdrop, hinner, hlead]

/-- Between its parentheses a url holds its value, blanks aside. -/
theorem holds_urlBody (hplain : '\\' ∉ source.toList) (ht : t ∈ tokensFrom 0 source.toList)
    (hkind : t.kind = .url) :
    Holds source (t.urlBody source) (Text.trim t.value.toList) ∧
      t.span.covers (t.urlBody source) = true := by
  obtain ⟨before, front, lead, gap, close, behind, hsource, hfront, hlead, hvalue, hgap, hclose,
    hstart, hstop⟩ := exists_parts_of_url hplain ht hkind
  have htext : t.span.chars source.toList =
      front ++ '(' :: (lead ++ (t.value.toList ++ gap) ++ close) := by
    have htext := text_of_toList_eq hsource hstart hstop
    rwa [Token.text, Span.text, String.ofList_inj] at htext
  have htrim : Text.trim (lead ++ (t.value.toList ++ gap)) = Text.trim t.value.toList :=
    Text.trim_blanks (fun c hc => Text.isBlank_of_isAsciiBlank (hlead c hc))
      (fun c hc => Text.isBlank_of_isAsciiBlank (hgap c hc)) _
  have hnone : ')' ∉ lead ++ (t.value.toList ++ gap) := by
    have hblank : ∀ {cs : List Char}, (∀ c ∈ cs, Text.isAsciiBlank c = true) → ')' ∉ cs :=
      fun hcs hmem => absurd (hcs _ hmem) (by decide)
    simp [hblank hlead, hblank hgap, hvalue]
  obtain ⟨trail, hinner, -⟩ := Text.trim_append (lead ++ (t.value.toList ++ gap))
  rw [htrim] at hinner
  have hbody := urlBody_eq hfront (hclose.symm.imp_right fun hnil => ⟨hnil, hnone⟩) htext
  rw [htrim] at hbody
  generalize lead ++ (t.value.toList ++ gap) = inner at hsource hstop hinner hbody
  have hparen : '('.utf8Size = 1 := rfl
  have hlength : t.start +
      (Text.byteLength front + 1 + Text.byteLength (inner.takeWhile Text.isBlank)) +
        Text.byteLength (Text.trim t.value.toList) ≤ t.stop := by
    have hsize := congrArg Text.byteLength hinner
    simp only [Text.byteLength_append, Text.byteLength_cons, hparen] at hsize hstop
    omega
  rw [hbody]
  refine ⟨⟨before ++ (front ++ '(' :: inner.takeWhile Text.isBlank), trail ++ (close ++ behind),
    ?_, ?_⟩, Span.covers_iff.mpr ⟨Nat.le_add_right _ _, hlength⟩⟩
  · rw [hsource]
    nth_rewrite 1 [hinner]
    simp
  · simp only [hstart, Text.byteLength_append, Text.byteLength_cons, hparen, Nat.add_assoc]

/-! ## The tokens that are linked -/

/-- The link that a token stands for where it is looked at: an unquoted url or a string. -/
def Token.link? (source : String) (t : Token) : Option Link :=
  if t.is .url then Link.make? (t.urlBody source) t.value
  else if t.is .string then stringLink? source t
  else none

/-- Tokens that are neither urls nor functions hold no link and lead to none. -/
theorem urlLinks_append (hfront : ∀ u ∈ us, u.kind ≠ .url ∧ u.kind ≠ .function) (ts : List Token) :
    urlLinks source (us ++ ts) = urlLinks source ts := by
  induction us with
  | nil => rfl
  | cons u us ih =>
    obtain ⟨⟨hurl, hfunction⟩, hrest⟩ := List.forall_mem_cons.mp hfront
    have hno : u.isFunction "url" = false := by simp [Token.isFunction, hfunction]
    rw [List.cons_append, urlLinks, if_neg (by simpa [Token.is] using hurl),
      if_neg (by simp [hno]), ih hrest]
    rfl

/-- The leading string of a run stands behind blanks and comments only. -/
theorem leadingString?_eq_some (h : leadingString? ts = some s) :
    s.kind = .string ∧ ∃ gap behind, ts = gap ++ s :: behind ∧ ∀ u ∈ gap, u.isTrivia = true := by
  unfold leadingString? at h
  split at h
  · rename_i t hfind
    split at h
    · rename_i hkind
      obtain rfl := Option.some.inj h
      obtain ⟨-, gap, behind, hts, hgap⟩ := List.find?_eq_some_iff_append.mp hfind
      exact ⟨by simpa [Token.is] using hkind, gap, behind, hts, fun u hu => by simpa using hgap u hu⟩
    · cases h
  · cases h

/-- Blanks and comments are neither URLs nor functions. -/
theorem kind_of_isTrivia (h : t.isTrivia = true) : t.kind ≠ .url ∧ t.kind ≠ .function := by
  have hkind : t.kind = .whitespace ∨ t.kind = .comment := by simpa [Token.isTrivia] using h
  rcases hkind with hkind | hkind <;> rw [hkind] <;> decide

/-- Behind the leading string of a run are the links of the run. -/
theorem urlLinks_of_leadingString? (h : leadingString? ts = some s) :
    s.kind = .string ∧ ∃ behind, (s :: behind).Sublist ts ∧ behind.length < ts.length ∧
      urlLinks source ts = urlLinks source behind := by
  obtain ⟨hkind, gap, behind, rfl, hgap⟩ := leadingString?_eq_some h
  refine ⟨hkind, behind, List.sublist_append_right gap _, by simp; omega, ?_⟩
  rw [urlLinks_append fun u hu => kind_of_isTrivia (hgap u hu)]
  have hstring : ∀ u ∈ [s], u.kind ≠ .url ∧ u.kind ≠ .function := by simp [hkind]
  exact urlLinks_append hstring behind

/-- A string by itself is linked by what it says. -/
theorem Token.link?_of_string (h : s.kind = .string) : s.link? source = stringLink? source s := by
  simp [Token.link?, Token.is, h]

/-- The links of some tokens are those of the first one and of the others. -/
theorem filterMap_link?_cons (source : String) (t : Token) (us : List Token) :
    (t :: us).filterMap (Token.link? source) =
      (t.link? source).toList ++ us.filterMap (Token.link? source) := by
  cases h : t.link? source <;> simp [h]

/-- The links of a run are those of some of its tokens. -/
theorem urlLinks_eq_filterMap (source : String) (ts : List Token) :
    ∃ us : List Token, us.Sublist ts ∧ urlLinks source ts = us.filterMap (Token.link? source) := by
  induction hn : ts.length using Nat.strongRecOn generalizing ts with
  | ind n ih =>
    cases ts with
    | nil => exact ⟨[], .slnil, rfl⟩
    | cons t ts =>
      subst hn
      obtain ⟨us, hsub, hlinks⟩ := ih ts.length (Nat.lt_succ_self _) ts rfl
      rw [urlLinks]
      split
      · rename_i hurl
        have hself : t.link? source = Link.make? (t.urlBody source) t.value := if_pos hurl
        exact ⟨t :: us, hsub.cons_cons t, by rw [filterMap_link?_cons, hself, hlinks]⟩
      · split
        · cases hstring : leadingString? ts with
          | none => exact ⟨us, hsub.cons t, hlinks⟩
          | some s =>
            -- The string belongs to the function, and the links go on behind it.
            obtain ⟨hkind, behind, hwithin, hlength, hbehind⟩ := urlLinks_of_leadingString? hstring
            obtain ⟨us, hsub, hlinks⟩ := ih behind.length (Nat.lt_succ_of_lt hlength) behind rfl
            refine ⟨s :: us, ((hsub.cons_cons s).trans hwithin).cons t, ?_⟩
            rw [hbehind, hlinks, filterMap_link?_cons, Token.link?_of_string hkind]
            rfl
        · exact ⟨us, hsub.cons t, hlinks⟩

/-- The links of a node are those of some of the tokens that it keeps. -/
theorem links_perm_filterMap (source : String) (node : Node) :
    ∃ us : List Token, us.Sublist node.runs.flatten ∧
      (node.links source).Perm (us.filterMap (Token.link? source)) := by
  cases node with
  | ruleset | comment => exact ⟨[], List.nil_sublist _, .nil⟩
  | declaration decl =>
    obtain ⟨us, hsub, hlinks⟩ := urlLinks_eq_filterMap source decl.tokens
    refine ⟨us, hsub.trans ?_, .of_eq hlinks⟩
    simp [Node.runs]
  | atRule rule children =>
    have hflat : (Node.atRule rule children).runs.flatten = rule.prelude := by simp [Node.runs]
    rw [hflat, Node.links]
    have hurls : ∃ us : List Token, us.Sublist rule.prelude ∧
        (urlLinks source rule.prelude ++ []).Perm (us.filterMap (Token.link? source)) := by
      obtain ⟨us, hsub, hlinks⟩ := urlLinks_eq_filterMap source rule.prelude
      exact ⟨us, hsub, .of_eq ((List.append_nil _).trans hlinks)⟩
    split
    · cases hstring : leadingString? rule.prelude with
      | none => exact hurls
      | some s =>
        obtain ⟨hkind, behind, hwithin, -, hbehind⟩ := urlLinks_of_leadingString? hstring
        obtain ⟨us, hsub, hlinks⟩ := urlLinks_eq_filterMap source behind
        refine ⟨s :: us, (hsub.cons_cons s).trans hwithin, ?_⟩
        rw [hbehind, hlinks, filterMap_link?_cons, Token.link?_of_string hkind]
        exact List.perm_append_comm
    · exact hurls

/-- The links of some nodes are those of some of the tokens that these keep. -/
theorem flatMap_links_perm_filterMap (source : String) (nodes : List Node) :
    ∃ us : List Token, us.Sublist (nodes.flatMap Node.runs).flatten ∧
      (nodes.flatMap (Node.links source)).Perm (us.filterMap (Token.link? source)) := by
  induction nodes with
  | nil => exact ⟨[], .slnil, .nil⟩
  | cons node nodes ih =>
    obtain ⟨us, hsub, hlinks⟩ := links_perm_filterMap source node
    obtain ⟨vs, hrest, hbehind⟩ := ih
    refine ⟨us ++ vs, ?_, ?_⟩
    · rw [List.flatMap_cons, List.flatten_append]
      exact hsub.append hrest
    · rw [List.flatMap_cons, List.filterMap_append]
      exact hlinks.append hbehind

/-! ## Links in order -/

/-- A link keeps the target that its text spells, trimmed, and there is one if that is not empty. -/
theorem Link.make?_eq_some {value : String} (h : Link.make? span value = some l) :
    l.span = span ∧ l.target = Text.trimString value ∧ Text.trim value.toList ≠ [] := by
  unfold Link.make? at h
  simp only at h
  split at h
  · cases h
  · rename_i hkept
    obtain rfl := Option.some.inj h
    exact ⟨rfl, rfl, fun hnil => hkept (by simp [hnil])⟩

/-- The link of a token lies in it, and holds its target or the body of a string. -/
theorem link?_eq_some (hplain : '\\' ∉ source.toList) (ht : t ∈ tokensFrom 0 source.toList)
    (h : t.link? source = some l) :
    t.span.covers l.span = true ∧ l.span.start < l.span.stop ∧
      Text.trimString (l.span.text source) = l.target ∧
      (l.span.text source = l.target ∨ t.kind = .string ∧ l.span = t.stringBody source ∧
        l.span.text source = t.value) := by
  unfold Token.link? at h
  split at h
  · rename_i hurl
    obtain ⟨hspan, htarget, hne⟩ := Link.make?_eq_some h
    obtain ⟨hholds, hcovers⟩ := holds_urlBody hplain ht (by simpa [Token.is] using hurl)
    rw [← hspan] at hholds hcovers
    have htext : l.span.text source = l.target := hholds.text_eq.trans htarget.symm
    refine ⟨hcovers, hholds.start_lt hne, ?_, .inl htext⟩
    rw [htext, htarget, Text.trimString, Text.trimString, String.toList_ofList, Text.trim_trim]
  · split at h
    · rename_i hstring
      have hkind : t.kind = .string := by simpa [Token.is] using hstring
      obtain ⟨hspan, htarget, hne⟩ := Link.make?_eq_some h
      obtain ⟨hholds, hcovers⟩ := holds_stringBody hplain ht hkind
      rw [← hspan] at hholds hcovers
      have htext : l.span.text source = t.value := by rw [hholds.text_eq, String.ofList_toList]
      have hvalue : t.value.toList ≠ [] := fun hnil => hne (by rw [hnil]; rfl)
      exact ⟨hcovers, hholds.start_lt hvalue, by rw [htext, htarget], .inr ⟨hkind, hspan, htext⟩⟩
    · cases h

/-- Links that lie in tokens that stand in order stand in order as well. -/
theorem inOrder_filterMap {f : Token → Option Link} (h : InOrder start stop (us.map Token.span))
    (hf : ∀ t ∈ us, ∀ l, f t = some l → t.span.covers l.span = true ∧ l.span.start < l.span.stop) :
    InOrder start stop ((us.filterMap f).map Link.span) := by
  induction us generalizing start with
  | nil => exact h
  | cons t us ih =>
    obtain ⟨hself, hrest⟩ := List.forall_mem_cons.mp hf
    obtain ⟨hstart, hpos, hbehind⟩ := h
    have horder := ih hbehind hrest
    cases hlink : f t with
    | none =>
      rw [List.filterMap_cons_none hlink]
      exact horder.of_le (Nat.le_of_lt (Nat.lt_of_le_of_lt hstart hpos))
    | some l =>
      obtain ⟨hcovers, hlt⟩ := hself l hlink
      obtain ⟨hfrom, hto⟩ := Span.covers_iff.mp hcovers
      rw [List.filterMap_cons_some hlink, List.map_cons]
      exact ⟨Nat.le_trans hstart hfrom, hlt, horder.of_le hto⟩

/-- Links in order are sorted by where they start. -/
theorem InOrder.sorted {links : List Link} (h : InOrder start stop (links.map Link.span)) :
    links.Pairwise fun a b => a.span.start < b.span.start := by
  obtain ⟨-, hpos, hpairs⟩ := inOrder_iff_pairwise.mp h
  exact (List.pairwise_map.mp hpairs).imp_of_mem fun ha _ hapart =>
    Nat.lt_of_lt_of_le (hpos _ (List.mem_map_of_mem ha)).2.1 hapart

/-- Links in order are what sorting them by their starts gives. -/
theorem mergeSort_eq_of_perm {links links' : List Link} (hperm : links.Perm links')
    (h : InOrder start stop (links'.map Link.span)) :
    links.mergeSort (fun a b => a.span.start ≤ b.span.start) = links' := by
  have hnodup : (links'.map fun l => l.span.start).Nodup :=
    List.pairwise_map.mpr (h.sorted.imp fun hlt => Nat.ne_of_lt hlt)
  have hsorted : (links.mergeSort fun a b => a.span.start ≤ b.span.start).Pairwise
      fun a b => a.span.start ≤ b.span.start :=
    (List.pairwise_mergeSort (fun a b c hab hbc => by simp only [decide_eq_true_eq] at *; omega)
      (fun a b => by simp only [Bool.or_eq_true, decide_eq_true_eq]; omega) links).imp
      fun hle => of_decide_eq_true hle
  have hsame := (List.mergeSort_perm links fun a b => a.span.start ≤ b.span.start).trans hperm
  refine hsame.eq_of_pairwise (fun a b ha hb hab hba => ?_) hsorted
    (h.sorted.imp fun hlt => Nat.le_of_lt hlt)
  rw [List.mem_mergeSort, hperm.mem_iff] at ha
  exact List.inj_on_of_nodup_map hnodup ha hb (Nat.le_antisymm hab hba)

/-- The links of a source are those of some of its tokens, in their order. -/
theorem exists_links_eq_filterMap (hplain : '\\' ∉ source.toList) :
    ∃ us : List Token, us.Sublist (tokensFrom 0 source.toList) ∧
      (parse source).1.links source = us.filterMap (Token.link? source) ∧
      InOrder 0 (Text.size source) (((parse source).1.links source).map Link.span) := by
  obtain ⟨us, hsub, hperm⟩ := flatMap_links_perm_filterMap source (parse source).1.nodes
  have hus := hsub.trans (parse_standIn source).sublist
  have htiles := tiles_tokensFrom 0 source.toList
  rw [Nat.zero_add] at htiles
  have horder := inOrder_filterMap (htiles.inOrder_of_sublist hus) fun t ht l hl =>
    (link?_eq_some hplain (hus.mem ht) hl).imp_right And.left
  have hlinks : (parse source).1.links source = us.filterMap (Token.link? source) :=
    mergeSort_eq_of_perm hperm horder
  exact ⟨us, hus, hlinks, hlinks ▸ horder⟩

/-- The link is the body of a string with blanks at its ends. -/
def Link.IsPadded (source : String) (l : Link) : Prop :=
  ∃ t ∈ scan source, t.kind = .string ∧ l.span = t.stringBody source ∧
    Text.trimString t.value ≠ t.value

/-- The links of a source stand in order and apart, and under each of them stands its target. The
body of a string has the blanks around the target as well. -/
structure LinksHoldTargets (source : String) : Prop where
  inOrder : InOrder 0 (Text.size source) (((parse source).1.links source).map Link.span)
  sorted : ((parse source).1.links source).Pairwise fun a b => a.span.start < b.span.start
  trimmed : ∀ l ∈ (parse source).1.links source, Text.trimString (l.span.text source) = l.target
  exact : ∀ l ∈ (parse source).1.links source,
    l.span.text source = l.target ↔ ¬ l.IsPadded source

/-- The body of a padded string is not its target. -/
theorem Link.IsPadded.text_ne {l : Link} (h : l.IsPadded source) (hplain : '\\' ∉ source.toList) :
    l.span.text source ≠ Text.trimString (l.span.text source) := by
  obtain ⟨t, ht, hkind, hspan, hpadded⟩ := h
  rw [scan_eq_append, List.mem_append] at ht
  have ht := ht.resolve_right fun heof => by
    rw [List.mem_singleton.mp heof] at hkind
    cases hkind
  rw [hspan, (holds_stringBody hplain ht hkind).1.text_eq, String.ofList_toList]
  exact hpadded.symm

/-- The links of a source without backslashes stand in order on their targets. -/
theorem linksHoldTargets_parse {source : String} (hplain : '\\' ∉ source.toList) :
    LinksHoldTargets source := by
  obtain ⟨us, hus, hlinks, horder⟩ := exists_links_eq_filterMap hplain
  have hlink : ∀ l ∈ (parse source).1.links source, ∃ t ∈ tokensFrom 0 source.toList,
      t.link? source = some l := by
    intro l hl
    rw [hlinks] at hl
    obtain ⟨t, ht, hl⟩ := List.mem_filterMap.mp hl
    exact ⟨t, hus.mem ht, hl⟩
  refine ⟨horder, horder.sorted, fun l hl => ?_, fun l hl => ?_⟩
  · obtain ⟨t, ht, hl⟩ := hlink l hl
    exact (link?_eq_some hplain ht hl).2.2.1
  · obtain ⟨t, ht, hl⟩ := hlink l hl
    obtain ⟨-, -, htrim, hexact⟩ := link?_eq_some hplain ht hl
    refine ⟨fun htext hpadded => hpadded.text_ne hplain (htext.trans htrim.symm), fun hno => ?_⟩
    rcases hexact with htext | ⟨hkind, hspan, hvalue⟩
    · exact htext
    · have hbare : Text.trimString t.value = t.value := by
        by_contra hne
        exact hno ⟨t, scan_eq_append source ▸ List.mem_append_left _ ht, hkind, hspan, hne⟩
      rw [← htrim, hvalue, hbare]

/-- An import, and a url with blanks inside that is found before the string in front of it. -/
theorem linksHoldTargets_parse_of_import :
    '\\' ∉ "@import 'a' url( d );".toList ∧ LinksHoldTargets "@import 'a' url( d );" ∧
      (parse "@import 'a' url( d );").1.links "@import 'a' url( d );" =
        [⟨⟨9, 10⟩, "a"⟩, ⟨⟨17, 18⟩, "d"⟩] := by
  have hplain : '\\' ∉ "@import 'a' url( d );".toList := by decide
  have hlinks : (parse "@import 'a' url( d );").1.nodes.flatMap
      (Node.links "@import 'a' url( d );") = [⟨⟨17, 18⟩, "d"⟩, ⟨⟨9, 10⟩, "a"⟩] := by cbv
  refine ⟨hplain, linksHoldTargets_parse hplain, ?_⟩
  rw [Stylesheet.links, hlinks]
  have horder : InOrder 0 21 ([⟨⟨9, 10⟩, "a"⟩, ⟨⟨17, 18⟩, "d"⟩].map Link.span) := by simp [InOrder]
  exact mergeSort_eq_of_perm (.swap _ _ _) horder

/-- The span of a link that a padded string names is wider than the target. -/
theorem link_text_ne_target_of_padded : ¬ ∀ source : String, '\\' ∉ source.toList →
    ∀ l ∈ (parse source).1.links source, l.span.text source = l.target := by
  intro h
  have hlinks : (parse "a\x7bb:url(\" x \")\x7d").1.links "a\x7bb:url(\" x \")\x7d" =
      [⟨⟨9, 12⟩, "x"⟩] := by cbv
  have htext := h "a\x7bb:url(\" x \")\x7d" (by decide) _ (hlinks ▸ List.mem_singleton_self _)
  revert htext
  decide

end CssWorkbench
