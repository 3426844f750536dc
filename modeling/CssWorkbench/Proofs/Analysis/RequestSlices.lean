import CssWorkbench.Proofs.Analysis.BraceOffsets
import CssWorkbench.Proofs.Analysis.CompletionRequests
import CssWorkbench.Proofs.Tree.CleanSpans
import CssWorkbench.Proofs.Tree.Paths

/-!
# Requests by byte offsets

The cursor is classified once more, by offsets that are searched for byte by byte, with every slice
checked. On the tree of a source no slice splits a character, and the request is the same.
-/

namespace CssWorkbench

namespace Sliced

open Text

/-! ## The cursor -/

/-- The last place between characters up to an offset, found byte by byte. -/
def placeUpTo (source : String) : Nat → Nat
  | 0 => 0
  | n + 1 => if (String.Pos.Raw.mk (n + 1)).isValid source then n + 1 else placeUpTo source n

/-- A request for the name between an offset and the end of a text. -/
def nameRequest (front : List Char) (start : Nat) (context : CompletionContext) :
    Sliced CompletionRequest :=
  (dropBytes start front).map fun typed =>
    ⟨context, String.ofList typed, ⟨start, byteLength front⟩⟩

/-- A request for a value, which starts behind the last break and the blanks there. -/
def valueRequest (front : List Char) (property : String) : Sliced CompletionRequest := do
  let start := offsetBehindLast breaksValue front
  let behind ← dropBytes start front
  nameRequest front (start + offsetOfOther isAsciiBlank behind) (.value property)

/-- The property in front of a colon in the last statement between two offsets. -/
def pendingProperty? (source : String) (start stop : Nat) : Sliced (Option String) := do
  let segment ← slice? start stop source.toList
  let statement ← dropBytes (offsetBehindLast endsStatement segment) segment
  if statement.contains ':' then
    let name := Text.trim (statement.takeWhile (· ≠ ':'))
    if readsAsName name && (isPropertyName name || !isElement (String.ofList name)) then
      pure (some (String.ofList name))
    else pure none
  else pure none

/-- Whether a colon at an offset of a text starts a pseudo-class. -/
def startsPseudoClass (front : List Char) (colon : Nat) : Sliced Bool := do
  let head ← takeBytes colon front
  let depth ← braceDepth head
  if depth = 0 then pure true
  else
    let statement ← dropBytes (offsetBehindLast endsStatement head) head
    let name := Text.trim statement
    pure (if !readsAsName name then true
      else if isPropertyName name then false
      else isElement (String.ofList name))

/-- A request in a block that starts at an offset and holds declarations. -/
def blockRequest (source : String) (front : List Char) (nameStart : Nat) (block : Span) :
    Sliced CompletionRequest := do
  match ← pendingProperty? source (block.start + 1) (byteLength front) with
  | some property => valueRequest front property
  | none => nameRequest front nameStart .property

/-- Whether the text of a span ends with one of some characters. -/
def endsIn (source : String) (span : Span) (closers : List Char) : Sliced Bool :=
  (span.cut? source).map fun text => text.getLast?.any closers.contains

/-- The request that a place gives rise to, if the cursor is really inside it. -/
def placeRequest? (source : String) (front : List Char) (nameStart : Nat) (place : Place) :
    Sliced (Option CompletionRequest) :=
  let offset := byteLength front
  match place with
  | .sheet _ => some none
  | .node (.declaration d) =>
    if d.semicolon && d.span.stop ≤ offset then some none
    else if d.property.stop < offset then some <$> valueRequest front d.name
    else some <$> nameRequest front nameStart .property
  | .node (.comment _) => some (some ⟨.nothing, "", .single offset⟩)
  | .node (.ruleset rule _) => do
    let closed ← endsIn source rule.span ['\x7d']
    if closed && rule.span.stop ≤ offset then some none
    else if offset ≤ rule.block.start then some <$> nameRequest front nameStart .selector
    else some <$> blockRequest source front nameStart rule.block
  | .node (.atRule rule _) => do
    let closed ← endsIn source rule.span ['\x7d', ';']
    if rule.span.stop ≤ offset && closed then some none
    else
      match rule.block with
      | none => some <$> nameRequest front nameStart .nothing
      | some block =>
        if offset ≤ block.start then some <$> nameRequest front nameStart .nothing
        else if Knowledge.declarationAtRules.contains (Text.lower rule.name) then
          some <$> blockRequest source front nameStart block
        else some <$> nameRequest front nameStart .selector

/-- The request that the tree gives rise to at the end of a text. -/
def treeRequest (sheet : Stylesheet) (source : String) (front : List Char) (nameStart : Nat) :
    Sliced CompletionRequest := do
  let places := (sheet.pathAt (byteLength front)).reverse
  match ← places.findSomeM? (placeRequest? source front nameStart) with
  | some request => some request
  | none =>
    nameRequest front nameStart (if nameStart = byteLength front then .topLevel else .selector)

/-- The request that the mark between the last word break and a name gives rise to. -/
def markRequest? (front name mark : List Char) (nameStart : Nat) :
    Sliced (Option CompletionRequest) :=
  let request (length : Nat) (context : CompletionContext) : CompletionRequest :=
    ⟨context, String.ofList name, ⟨nameStart - length, byteLength front⟩⟩
  if endsWith ['@'] mark && !endsWith ['\\', '@'] mark then some (some (request 1 .atRule))
  else if endsWith [':', ':'] mark then some (some (request 2 .pseudoElement))
  else if endsWith [':'] mark then do
    let starts ← startsPseudoClass front (nameStart - 1)
    if starts then some (some (request 1 .pseudoClass)) else some none
  else some none

/-- The request at an offset. -/
def requestAt (sheet : Stylesheet) (source : String) (offset : Nat) : Sliced CompletionRequest := do
  let front ← takeBytes (placeUpTo source (min offset (size source))) source.toList
  if endsInComment front.reverse then some ⟨.nothing, "", .single (byteLength front)⟩
  else
    let wordStart := offsetBehindLast breaksWord front
    let nameStart := offsetBehindLast (fun c => !isNameChar c) front
    let name ← dropBytes nameStart front
    if wordStart < nameStart then
      let mark ← slice? wordStart nameStart front
      match ← markRequest? front name mark nameStart with
      | some request => some request
      | none => treeRequest sheet source front nameStart
    else treeRequest sheet source front nameStart

/-! ## Places in front of the cursor -/

variable {source : String} {front name head behind : List Char} {p : Char → Bool} {offset n : Nat}

/-- What is found is the greatest place up to the offset. -/
theorem isGreatest_placeUpTo (source : String) (n : Nat) :
    IsGreatest {place | (String.Pos.Raw.mk place).IsValid source ∧ place ≤ n}
      (placeUpTo source n) := by
  induction n with
  | zero =>
    refine ⟨⟨?_, Nat.le_refl _⟩, fun place hplace => hplace.2⟩
    exact @isValid_of_toList_eq source [] source.toList rfl
  | succ n ih =>
    rw [placeUpTo]
    split
    · rename_i hvalid
      exact ⟨⟨String.Pos.Raw.isValid_eq_true_iff.mp hvalid, Nat.le_refl _⟩,
        fun place hplace => hplace.2⟩
    · rename_i hinvalid
      refine ⟨⟨ih.1.1, Nat.le_succ_of_le ih.1.2⟩, fun place ⟨hvalid, hle⟩ => ?_⟩
      refine ih.2 ⟨hvalid, Nat.le_of_lt_succ (Nat.lt_of_le_of_ne hle ?_)⟩
      rintro rfl
      exact hinvalid (String.Pos.Raw.isValid_eq_true_iff.mpr hvalid)

/-- The text in front of the cursor is cut off at a place between characters. -/
theorem takeBytes_placeUpTo (source : String) (offset : Nat) :
    takeBytes (placeUpTo source (min offset (size source))) source.toList =
      some (Text.before offset source.toList) := by
  obtain ⟨after, hsource⟩ := exists_append_before offset source.toList
  rw [(isGreatest_placeUpTo source _).unique (isGreatest_byteLength_before source offset)]
  generalize Text.before offset source.toList = front at hsource ⊢
  rw [hsource]
  exact takeBytes_byteLength_append _ _

/-- Behind an ASCII character that a search found, a text is sliced between characters. -/
theorem dropBytes_offsetBehindLast (hp : ∀ c, p c = true → c.toNat < 0x80) (cs : List Char) :
    dropBytes (offsetBehindLast p cs) cs = some (behindLast p cs) := by
  obtain ⟨front, hcut, hoffset⟩ := exists_append_behindLast hp cs
  rw [hoffset]
  conv_lhs => rw [hcut]
  exact dropBytes_byteLength_append _ _

/-- What ends a statement is ASCII. -/
theorem lt_of_endsStatement {c : Char} (h : endsStatement c = true) : c.toNat < 0x80 := by
  simp only [endsStatement, Bool.or_eq_true, decide_eq_true_eq] at h
  rcases h with (rfl | rfl) | rfl <;> decide

/-- What breaks a word is ASCII. -/
theorem lt_of_breaksWord {c : Char} (h : breaksWord c = true) : c.toNat < 0x80 := by
  simp only [breaksWord, Bool.or_eq_true, decide_eq_true_eq] at h
  rcases h with (h | h) | rfl
  · exact lt_of_isAsciiBlank h
  · exact lt_of_endsStatement h
  · decide

/-- What breaks a value is ASCII. -/
theorem lt_of_breaksValue {c : Char} (h : breaksValue c = true) : c.toNat < 0x80 := by
  simp only [breaksValue, Bool.or_eq_true, decide_eq_true_eq] at h
  rcases h with (((rfl | h) | rfl) | rfl) | rfl
  · decide
  · exact lt_of_endsStatement h
  · decide
  · decide
  · decide

/-- Every character that is not an ASCII one may stand in a name. -/
theorem lt_of_not_isNameChar {c : Char} (h : (!isNameChar c) = true) : c.toNat < 0x80 := by
  by_contra hc
  rw [Bool.not_eq_true'] at h
  simp [isNameChar, isNameStart] at h
  omega

/-! ## Requests -/

/-- The request for a name is the same by slices. -/
theorem nameRequest_eq (h : front = head ++ name) (context : CompletionContext) :
    nameRequest front (byteLength head) context =
      some (CssWorkbench.nameRequest front name context) := by
  rw [nameRequest, nameRequest_of_append h]
  conv_lhs => rw [h, dropBytes_byteLength_append, ← h]
  rfl

/-- The request for a value is the same by slices. -/
theorem valueRequest_eq (front : List Char) (property : String) :
    valueRequest front property = some (CssWorkbench.valueRequest front property) := by
  obtain ⟨head, hcut, hoffset⟩ := exists_append_behindLast (fun _ => lt_of_breaksValue) front
  have hblanks : front = (head ++ (behindLast breaksValue front).takeWhile isAsciiBlank) ++
      (behindLast breaksValue front).dropWhile isAsciiBlank := by
    rw [List.append_assoc, List.takeWhile_append_dropWhile]
    exact hcut
  have hrequest := nameRequest_eq hblanks (.value property)
  rw [byteLength_append, ← hoffset, ← offsetOfOther_eq fun _ => lt_of_isAsciiBlank] at hrequest
  show (dropBytes (offsetBehindLast breaksValue front) front).bind _ = _
  rw [dropBytes_offsetBehindLast fun _ => lt_of_breaksValue]
  exact hrequest

/-- Whether a pseudo-class starts is the same by slices. -/
theorem startsPseudoClass_eq (h : front = head ++ behind) :
    startsPseudoClass front (byteLength head) = some (CssWorkbench.startsPseudoClass head) := by
  have hhead : takeBytes (byteLength head) front = some head := by
    rw [h]
    exact takeBytes_byteLength_append _ _
  simp only [startsPseudoClass, CssWorkbench.startsPseudoClass, hhead, braceDepth_eq,
    Option.bind_eq_bind, Option.bind_some, dropBytes_offsetBehindLast fun _ => lt_of_endsStatement]
  split <;> rfl

/-- Behind the brace of a block the source is sliced up to the cursor. -/
theorem pendingProperty?_eq {before rest after : List Char}
    (hfront : source.toList = front ++ after) (hbrace : source.toList = before ++ '\x7b' :: rest)
    (hlt : byteLength before < byteLength front) :
    pendingProperty? source (byteLength before + 1) (byteLength front) =
      some ((dropBytes (byteLength before + 1) front).bind CssWorkbench.pendingProperty?) := by
  have hopener : byteLength (before ++ ['\x7b']) = byteLength before + 1 := byteLength_append _ _
  obtain ⟨block, hblock, -⟩ := exists_append_of_byteLength_le
    (show before ++ ['\x7b'] ++ rest = front ++ after by
      rw [List.append_assoc, List.singleton_append, ← hbrace, hfront]) (by omega)
  have hslice : slice? (byteLength before + 1) (byteLength front) source.toList = some block := by
    rw [hblock, List.append_assoc] at hfront
    have hslice := slice?_of_toList_eq hfront
    rwa [← byteLength_append, ← hblock, hopener] at hslice
  have hdrop : dropBytes (byteLength before + 1) front = some block := by
    rw [hblock, ← hopener]
    exact dropBytes_byteLength_append _ _
  simp only [pendingProperty?, CssWorkbench.pendingProperty?, hslice, hdrop, Option.bind_eq_bind,
    Option.bind_some, dropBytes_offsetBehindLast fun _ => lt_of_endsStatement]
  split
  · split <;> rfl
  · rfl

section Tree

variable {node : Node} {after : List Char} {block span : Span}

/-- The request in a block is the same by slices. -/
theorem blockRequest_eq (hsource : source.toList = front ++ after) (hname : front = head ++ name)
    (hnode : Below node (parse source).1.children) (hblock : node.block? = some block)
    (hlt : block.start < byteLength front) :
    blockRequest source front (byteLength head) block =
      some (CssWorkbench.blockRequest front name block) := by
  obtain ⟨before, body, behind, hbrace, rfl, -⟩ := exists_text_of_block hnode hblock
  rw [List.append_assoc, List.cons_append] at hbrace
  rw [blockRequest, pendingProperty?_eq hsource hbrace hlt, CssWorkbench.blockRequest]
  cases (dropBytes (byteLength before + 1) front).bind CssWorkbench.pendingProperty? with
  | some property => exact valueRequest_eq front property
  | none => exact nameRequest_eq hname .property

/-- What a clean span ends in is the same by slices. -/
theorem endsIn_eq (h : span.IsClean source) (closers : List Char) :
    endsIn source span closers =
      some ((span.chars source.toList).getLast?.any closers.contains) := by
  rw [endsIn, h.cut?_eq]
  rfl

/-- A node of the tree gives rise to its request with every slice between characters. -/
theorem placeRequest?_eq (hsource : source.toList = front ++ after) (hname : front = head ++ name)
    (hnode : Below node (parse source).1.children) :
    placeRequest? source front (byteLength head) (.node node) =
      some (Place.request? source front name (.node node)) := by
  have hclean := (parse_madeOf source hnode).isClean.1
  have hrequest := nameRequest_eq hname
  have hinner := fun block =>
    @blockRequest_eq source front name head node after block hsource hname hnode
  cases node with
  | declaration d =>
    simp only [placeRequest?, Place.request?, hrequest, valueRequest_eq, Option.map_eq_map,
      Option.map_some]
    split
    · rfl
    · split <;> rfl
  | comment span => rfl
  | ruleset rule children =>
    have hspan : rule.span.IsClean source := hclean
    have hends := endsIn_eq hspan ['\x7d']
    simp only [placeRequest?, Place.request?, hends, hrequest, Option.bind_eq_bind,
      Option.bind_some, Option.map_eq_map, Option.map_some]
    split
    · rfl
    · split
      · rfl
      · rename_i hbehind
        rw [hinner rule.block rfl (Nat.lt_of_not_le hbehind), Option.map_some]
  | atRule rule children =>
    have hspan : rule.span.IsClean source := hclean
    have hends := endsIn_eq hspan ['\x7d', ';']
    simp only [placeRequest?, Place.request?, hends, hrequest, Option.bind_eq_bind,
      Option.bind_some, Option.map_eq_map, Option.map_some]
    split
    · rfl
    · cases hblock : rule.block with
      | none => rfl
      | some block =>
        simp only
        split
        · rfl
        · rename_i hbehind
          rw [hinner block hblock (Nat.lt_of_not_le hbehind), Option.map_some]
          split <;> rfl

/-- A search whose steps all succeed is the search itself. -/
theorem findSomeM?_eq {α β : Type} {f : α → Sliced (Option β)} {g : α → Option β} {xs : List α}
    (h : ∀ x ∈ xs, f x = some (g x)) : xs.findSomeM? f = some (xs.findSome? g) := by
  induction xs with
  | nil => rfl
  | cons x xs ih =>
    obtain ⟨hx, hxs⟩ := List.forall_mem_cons.mp h
    rw [List.findSomeM?_cons, List.findSome?_cons, hx]
    simp only [Option.bind_eq_bind, Option.bind_some]
    cases g x with
    | none => exact ih hxs
    | some found => rfl

/-- The request in a tree is the same by slices. -/
theorem treeRequest_eq (hsource : source.toList = front ++ after) (hname : front = head ++ name) :
    treeRequest (parse source).1 source front (byteLength head) =
      some ((parse source).1.treeRequest source front name) := by
  have hplaces : ∀ place ∈ ((parse source).1.pathAt (byteLength front)).reverse,
      placeRequest? source front (byteLength head) place =
        some (Place.request? source front name place) := by
    intro place hplace
    rcases List.mem_cons.mp (List.mem_reverse.mp hplace) with rfl | hplace
    · rfl
    · obtain ⟨node, hnode, rfl⟩ := List.mem_map.mp hplace
      exact placeRequest?_eq hsource hname ((descends_pathTo _ _).below_of_mem node hnode).1
  have hempty : (byteLength head = byteLength front) = (name.isEmpty = true) := by
    rw [hname, byteLength_append, List.isEmpty_iff, ← byteLength_eq_zero_iff]
    exact propext (by omega)
  rw [treeRequest, Stylesheet.treeRequest]
  simp only [findSomeM?_eq hplaces, Option.bind_eq_bind, Option.bind_some, hempty]
  cases (((parse source).1.pathAt (byteLength front)).reverse).findSome?
      (Place.request? source front name) with
  | some request => rfl
  | none => exact nameRequest_eq hname _

end Tree

/-! ## Marks -/

/-- One character opens a text whose first one it is. -/
theorem isPrefixOf_singleton (c : Char) (cs : List Char) :
    [c].isPrefixOf cs = decide (cs.head? = some c) := by
  cases cs with
  | nil => rfl
  | cons d cs =>
    rw [Bool.eq_iff_iff, decide_eq_true_eq, List.head?_cons, Option.some_inj]
    simp [List.isPrefixOf, eq_comm (a := c)]

/-- Two characters open a text whose first two they are. -/
theorem isPrefixOf_pair (c d : Char) (cs : List Char) : [c, d].isPrefixOf cs =
    (decide (cs.head? = some c) && decide (cs.tail.head? = some d)) := by
  rw [← isPrefixOf_singleton, ← isPrefixOf_singleton]
  cases cs <;> simp [List.isPrefixOf]

/-- The text up to the colon of a mark is sliced in front of it. -/
theorem startsPseudoClass_of_colon {mark : List Char} (h : front = head ++ name)
    (hmark : ':' :: mark <+: head.reverse) : startsPseudoClass front (byteLength head - 1) =
      some (CssWorkbench.startsPseudoClass (head.reverse.drop 1).reverse) := by
  obtain ⟨more, hmore⟩ := hmark
  have hhead : head = (head.reverse.drop 1).reverse ++ [':'] := by
    rw [← hmore, ← List.reverse_reverse head, ← hmore]
    simp
  have hsize : byteLength head - 1 = byteLength (head.reverse.drop 1).reverse := by
    conv_lhs => rw [hhead, byteLength_append]
    rfl
  rw [hsize]
  have hfront : front = (head.reverse.drop 1).reverse ++ ':' :: name := by
    conv_lhs => rw [h, hhead, List.append_assoc]
    rfl
  exact startsPseudoClass_eq hfront

/-- The request behind a mark is the same by slices. -/
theorem markRequest?_eq (hname : front = head ++ name) {mark : List Char}
    (hmark : mark <+: head.reverse) :
    markRequest? front name mark.reverse (byteLength head) =
      some (markedRequest? front name head.reverse mark) := by
  simp only [markRequest?, endsWith, List.reverse_reverse, List.reverse_cons, List.reverse_nil,
    List.nil_append, List.cons_append, isPrefixOf_singleton, isPrefixOf_pair,
    ← markedRequest_of_append hname]
  cases mark with
  | nil => rfl
  | cons c rest =>
    by_cases hat : c = '@'
    · subst hat
      by_cases hescape : rest.head? = some '\\' <;> simp [markedRequest?, hescape]
    · by_cases hmarked : c = ':'
      · subst hmarked
        rw [startsPseudoClass_of_colon hname hmark]
        unfold markedRequest?
        generalize CssWorkbench.startsPseudoClass (head.reverse.drop 1).reverse = starts
        cases rest with
        | nil => cases starts <;> rfl
        | cons d rest => by_cases hdouble : d = ':' <;> cases starts <;> simp [hdouble]
      · simp [markedRequest?, hat, hmarked]

/-- The characters of a name break no word. -/
theorem breaksWord_of_isNameChar {c : Char} (h : isNameChar c = true) : breaksWord c = false := by
  rw [Bool.eq_false_iff]
  intro hbreaks
  simp only [breaksWord, isAsciiBlank, endsStatement, Bool.or_eq_true, decide_eq_true_eq] at hbreaks
  rcases hbreaks with (((((rfl | rfl) | rfl) | rfl) | rfl) | (rfl | rfl) | rfl) | rfl <;>
    exact absurd h (by decide)

/-- The last word of a text is a mark and a name. -/
theorem behindLast_breaksWord (front : List Char) :
    behindLast breaksWord front =
      ((front.reverse.dropWhile isNameChar).takeWhile fun c => !breaksWord c).reverse ++
        (front.reverse.takeWhile isNameChar).reverse := by
  have hname : ∀ c ∈ front.reverse.takeWhile isNameChar, (!breaksWord c) = true := fun c hc => by
    rw [breaksWord_of_isNameChar (List.all_eq_true.mp List.all_takeWhile c hc)]
    rfl
  rw [behindLast, ← List.reverse_append]
  conv_lhs => rw [← List.takeWhile_append_dropWhile (p := isNameChar) (l := front.reverse),
    List.takeWhile_append_of_pos hname]

/-- The name and the mark in front of it are found at the end of a text, byte by byte. -/
theorem exists_last_word (front : List Char) :
    let name := (front.reverse.takeWhile isNameChar).reverse
    let mark := (front.reverse.dropWhile isNameChar).takeWhile fun c => !breaksWord c
    ∃ before, front = before ++ mark.reverse ++ name ∧
      front.reverse.dropWhile isNameChar = (before ++ mark.reverse).reverse ∧
      offsetBehindLast breaksWord front = byteLength before ∧
      offsetBehindLast (fun c => !isNameChar c) front = byteLength (before ++ mark.reverse) := by
  intro name mark
  obtain ⟨head, hhead, hnameStart⟩ := exists_append_behindLast (fun _ => lt_of_not_isNameChar) front
  obtain ⟨before, hbefore, hwordStart⟩ := exists_append_behindLast (fun _ => lt_of_breaksWord) front
  have hname : behindLast (fun c => !isNameChar c) front = name := by simp [behindLast, name]
  rw [hname] at hhead
  rw [behindLast_breaksWord, ← List.append_assoc] at hbefore
  have hcut : head = before ++ mark.reverse := List.append_cancel_right (hhead.symm.trans hbefore)
  refine ⟨before, hbefore, ?_, hwordStart, hcut ▸ hnameStart⟩
  have hreverse := congrArg List.reverse hhead
  rw [List.reverse_append, List.reverse_reverse] at hreverse
  rw [← hcut]
  exact List.append_cancel_left ((List.takeWhile_append_dropWhile (p := isNameChar)).trans hreverse)

/-- On the tree of a source no slice splits a character, and the request is the same. -/
theorem requestAt_eq (source : String) (offset : Nat) :
    requestAt (parse source).1 source offset = some ((parse source).1.requestAt source offset) := by
  obtain ⟨after, hsource⟩ := exists_append_before offset source.toList
  rw [Stylesheet.requestAt_eq]
  simp only [requestAt, takeBytes_placeUpTo, Option.bind_eq_bind, Option.bind_some]
  generalize Text.before offset source.toList = front at hsource ⊢
  split
  · rfl
  · obtain ⟨before, hfront, hbackwards, hwordStart, hnameStart⟩ := exists_last_word front
    have hopens : ((front.reverse.dropWhile isNameChar).takeWhile fun c => !breaksWord c) <+:
        front.reverse.dropWhile isNameChar := List.takeWhile_prefix _
    rw [hnameStart, hwordStart]
    generalize (front.reverse.takeWhile isNameChar).reverse = name at hfront ⊢
    generalize ((front.reverse.dropWhile isNameChar).takeWhile fun c => !breaksWord c) = mark
      at hfront hbackwards hopens ⊢
    rw [hbackwards] at hopens ⊢
    have hname : dropBytes (byteLength (before ++ mark.reverse)) front = some name := by
      rw [hfront]
      exact dropBytes_byteLength_append _ _
    have hslice : slice? (byteLength before) (byteLength (before ++ mark.reverse)) front =
        some mark.reverse := by
      rw [hfront, List.append_assoc, byteLength_append]
      exact slice?_byteLength_append before mark.reverse name
    rw [hname, Option.bind_some]
    split
    · rw [hslice, Option.bind_some, markRequest?_eq hfront hopens, Option.bind_some]
      cases markedRequest? front name (before ++ mark.reverse).reverse mark with
      | some request => rfl
      | none => exact treeRequest_eq hsource hfront
    · -- The last word is a name without a mark.
      rename_i hword
      rw [byteLength_append] at hword
      have hnil : mark = [] := by
        rw [← List.reverse_eq_nil_iff, ← byteLength_eq_zero_iff]
        omega
      subst hnil
      exact treeRequest_eq hsource hfront

end Sliced

end CssWorkbench
