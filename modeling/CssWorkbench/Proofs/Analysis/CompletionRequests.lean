import CssWorkbench.Proofs.Text.Bytes
import CssWorkbench.Proofs.Token.Coverage
import CssWorkbench.Proofs.Workspace.DeclaredValues

/-!
# What completion replaces

A request replaces the end of the text in front of the cursor: the mark of its context and the name
that was typed behind it. The names of a context carry the mark of the context and no other, so that
a name that starts with what was typed also starts with what is replaced.
-/

namespace CssWorkbench

open Text

variable {front name head : List Char} {request : CompletionRequest} {context : CompletionContext}

/-! ## Requests -/

/-- What stands in front of the names of a context. -/
def CompletionContext.mark : CompletionContext → List Char
  | .atRule => ['@']
  | .pseudoClass => [':']
  | .pseudoElement => [':', ':']
  | _ => []

/-- A request replaces the end of a text, which is the mark of its context and what was typed. Where
names of several kinds are offered nothing was typed. -/
structure CompletionRequest.EndsText (front : List Char) (request : CompletionRequest) : Prop where
  replaced : ∃ head, front = head ++ (request.context.mark ++ request.typed.toList) ∧
    request.replace = ⟨byteLength head, byteLength front⟩
  untyped : request.context = .topLevel → request.typed = ""

/-- What is replaced is the mark and what was typed. -/
theorem CompletionRequest.EndsText.slice?_eq (h : request.EndsText front) (after : List Char) :
    slice? request.replace.start request.replace.stop (front ++ after) =
      some (request.context.mark ++ request.typed.toList) := by
  obtain ⟨head, hfront, hreplace⟩ := h.replaced
  rw [hreplace, hfront, byteLength_append, List.append_assoc]
  exact slice?_byteLength_append head _ after

/-- A request for a name replaces the name behind a front. -/
theorem nameRequest_of_append (h : front = head ++ name) (context : CompletionContext) :
    nameRequest front name context =
      ⟨context, String.ofList name, ⟨byteLength head, byteLength front⟩⟩ := by
  have hsize : byteLength front - byteLength name = byteLength head := by
    rw [h, byteLength_append, Nat.add_sub_cancel]
  rw [nameRequest, hsize]

/-- A request for a marked name replaces the mark and the name behind a front. -/
theorem markedRequest_of_append (h : front = head ++ name) (length : Nat)
    (context : CompletionContext) : markedRequest front name length context =
      ⟨context, String.ofList name, ⟨byteLength head - length, byteLength front⟩⟩ := by
  rw [markedRequest, nameRequest_of_append h]

/-- A request for a name replaces the end of the text. -/
theorem endsText_nameRequest (h : front = head ++ name) (hmark : context.mark = [])
    (htop : context = .topLevel → name = []) :
    (nameRequest front name context).EndsText front := by
  rw [nameRequest_of_append h]
  refine ⟨⟨head, ?_, rfl⟩, fun hcontext => ?_⟩
  · rw [hmark, String.toList_ofList]
    exact h
  · rw [htop hcontext]

/-- A request for a marked name replaces the end of the text. -/
theorem endsText_markedRequest {length : Nat} (h : front = head ++ (context.mark ++ name))
    (hlength : byteLength context.mark = length) (htop : context ≠ .topLevel) :
    (markedRequest front name length context).EndsText front := by
  have hsize : byteLength (head ++ context.mark) - length = byteLength head := by
    rw [byteLength_append, hlength, Nat.add_sub_cancel]
  rw [markedRequest_of_append (h.trans (List.append_assoc ..).symm), hsize]
  refine ⟨⟨head, ?_, rfl⟩, fun hcontext => absurd hcontext htop⟩
  rw [String.toList_ofList]
  exact h

/-- A request for a value replaces the end of the text. -/
theorem endsText_valueRequest (front : List Char) (property : String) :
    (valueRequest front property).EndsText front := by
  have hcut := append_behindLast breaksValue front
  rw [← List.takeWhile_append_dropWhile (p := isAsciiBlank) (l := behindLast breaksValue front),
    ← List.append_assoc] at hcut
  exact endsText_nameRequest hcut rfl fun h => by cases h

/-- A request in a block replaces the end of the text. -/
theorem endsText_blockRequest (h : front = head ++ name) (block : Span) :
    (blockRequest front name block).EndsText front := by
  unfold blockRequest
  simp only
  split
  · exact endsText_valueRequest front _
  · exact endsText_nameRequest h rfl fun h => by cases h

/-- The request that a place gives rise to ends the text in front of the cursor. -/
theorem endsText_of_place {source : String} {place : Place} (h : front = head ++ name)
    (hplace : place.request? source front name = some request) : request.EndsText front := by
  have hname {context : CompletionContext} (hmark : context.mark = [])
      (htop : context ≠ .topLevel) : (nameRequest front name context).EndsText front :=
    endsText_nameRequest h hmark fun heq => absurd heq htop
  unfold Place.request? at hplace
  cases place with
  | sheet => cases hplace
  | node node =>
    cases node with
    | declaration d =>
      simp only at hplace
      split at hplace
      · cases hplace
      · split at hplace <;> obtain rfl := Option.some.inj hplace
        · exact endsText_valueRequest front _
        · exact hname rfl (by decide)
    | comment span =>
      obtain rfl := Option.some.inj hplace
      exact endsText_nameRequest (List.append_nil front).symm rfl fun h => by cases h
    | ruleset rule children =>
      simp only at hplace
      split at hplace
      · cases hplace
      · split at hplace <;> obtain rfl := Option.some.inj hplace
        · exact hname rfl (by decide)
        · exact endsText_blockRequest h rule.block
    | atRule rule children =>
      simp only at hplace
      split at hplace
      · cases hplace
      · split at hplace
        · obtain rfl := Option.some.inj hplace
          exact hname rfl (by decide)
        · split at hplace
          · obtain rfl := Option.some.inj hplace
            exact hname rfl (by decide)
          · split at hplace <;> obtain rfl := Option.some.inj hplace
            · exact endsText_blockRequest h _
            · exact hname rfl (by decide)

/-- A request in a tree replaces the end of the text. -/
theorem Stylesheet.endsText_treeRequest (sheet : Stylesheet) (source : String)
    (h : front = head ++ name) : (sheet.treeRequest source front name).EndsText front := by
  rw [treeRequest]
  split
  · rename_i hfound
    obtain ⟨place, -, hplace⟩ := List.exists_of_findSome?_eq_some hfound
    exact endsText_of_place h hplace
  · by_cases hempty : name = []
    · subst hempty
      exact endsText_nameRequest h rfl fun _ => rfl
    · rw [if_neg (by simpa using hempty)]
      exact endsText_nameRequest h rfl fun h => by cases h

/-- The request of the mark in front of a name. Text and mark are given backwards. -/
def markedRequest? (front name backwards mark : List Char) : Option CompletionRequest :=
  match mark with
  | '@' :: mark =>
    if mark.head? = some '\\' then none else some (markedRequest front name 1 .atRule)
  | ':' :: ':' :: _ => some (markedRequest front name 2 .pseudoElement)
  | ':' :: _ =>
    if startsPseudoClass (backwards.drop 1).reverse then
      some (markedRequest front name 1 .pseudoClass)
    else none
  | _ => none

/-- The request at an offset is read off the text in front of the offset. -/
theorem Stylesheet.requestAt_eq (sheet : Stylesheet) (source : String) (offset : Nat) :
    sheet.requestAt source offset =
      let front := Text.before offset source.toList
      let name := (front.reverse.takeWhile isNameChar).reverse
      let backwards := front.reverse.dropWhile isNameChar
      if endsInComment front.reverse then emptyRequest front .nothing
      else
        match markedRequest? front name backwards (backwards.takeWhile fun c => !breaksWord c) with
        | some request => request
        | none => sheet.treeRequest source front name := by
  rw [Stylesheet.requestAt]
  simp only
  split
  · rfl
  · generalize List.takeWhile (fun c => !breaksWord c)
      (List.dropWhile isNameChar (Text.before offset source.toList).reverse) = mark
    fun_cases markedRequest? <;> simp_all

/-- A request behind a mark replaces the end of the text. -/
theorem endsText_of_mark {backwards mark : List Char} (h : front = backwards.reverse ++ name)
    (hmark : mark <+: backwards)
    (hrequest : markedRequest? front name backwards mark = some request) :
    request.EndsText front := by
  have hcut (context : CompletionContext) (hopens : context.mark.reverse <+: mark) :
      ∃ head, front = head ++ (context.mark ++ name) := by
    obtain ⟨tail, htail⟩ := hopens.trans hmark
    refine ⟨tail.reverse, ?_⟩
    rw [h, ← htail, List.reverse_append, List.reverse_reverse, List.append_assoc]
  unfold markedRequest? at hrequest
  split at hrequest
  · split at hrequest
    · cases hrequest
    · obtain rfl := Option.some.inj hrequest
      obtain ⟨head, hhead⟩ := hcut .atRule ⟨_, rfl⟩
      exact endsText_markedRequest hhead rfl (by decide)
  · obtain rfl := Option.some.inj hrequest
    obtain ⟨head, hhead⟩ := hcut .pseudoElement ⟨_, rfl⟩
    exact endsText_markedRequest hhead rfl (by decide)
  · split at hrequest
    · obtain rfl := Option.some.inj hrequest
      obtain ⟨head, hhead⟩ := hcut .pseudoClass ⟨_, rfl⟩
      exact endsText_markedRequest hhead rfl (by decide)
    · cases hrequest
  · cases hrequest

/-- The request at an offset ends the text in front of it. -/
theorem Stylesheet.endsText_requestAt (sheet : Stylesheet) (source : String) (offset : Nat) :
    (sheet.requestAt source offset).EndsText (Text.before offset source.toList) := by
  rw [Stylesheet.requestAt_eq]
  simp only
  generalize Text.before offset source.toList = front
  split
  · exact endsText_nameRequest (List.append_nil front).symm rfl fun h => by cases h
  · have hcut : front = (front.reverse.dropWhile isNameChar).reverse ++
        (front.reverse.takeWhile isNameChar).reverse := by
      rw [← List.reverse_append, List.takeWhile_append_dropWhile, List.reverse_reverse]
    have hopens : ((front.reverse.dropWhile isNameChar).takeWhile fun c => !breaksWord c) <+:
        front.reverse.dropWhile isNameChar := List.takeWhile_prefix _
    generalize (front.reverse.takeWhile isNameChar).reverse = name at hcut ⊢
    generalize front.reverse.dropWhile isNameChar = backwards at hcut hopens ⊢
    generalize (backwards.takeWhile fun c => !breaksWord c) = mark at hopens ⊢
    split
    · rename_i hrequest
      exact endsText_of_mark hcut hopens hrequest
    · exact sheet.endsText_treeRequest source hcut

end CssWorkbench
