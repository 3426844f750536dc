import CssWorkbench.Proofs.Analysis.RequestSlices
import CssWorkbench.Proofs.Tree.NodeOrder
import Mathlib

/-!
# What completion offers

The label of a candidate is the mark of its context and a name that has none. So a name that starts
with what was typed behind the mark has a label that starts with all that is replaced. The items are
computed once more with every slice checked, as the request is: a candidate is compared with what was
typed only if it has a place between characters there.
-/

namespace CssWorkbench

open Text

namespace Text

/-! ## Letter case -/

/-- Letters are ASCII. -/
theorem lt_of_isAlpha {c : Char} (h : c.isAlpha = true) : c.toNat < 0x80 := by
  simp only [Char.isAlpha, Char.isUpper, Char.isLower, Bool.or_eq_true, Bool.and_eq_true,
    decide_eq_true_eq] at h
  rcases h with h | h
  · exact Nat.lt_of_le_of_lt (UInt32.le_iff_toNat_le.mp h.2) (by decide)
  · exact Nat.lt_of_le_of_lt (UInt32.le_iff_toNat_le.mp h.2) (by decide)

/-- Small letters take up as many bytes as capital ones. -/
theorem utf8Size_toLower (c : Char) : c.toLower.utf8Size = c.utf8Size := by
  by_cases hletter : c.isAlpha = true
  · have hlower : c.toLower.isAlpha = true := (Char.isAlpha_toLower_eq_isAlpha c).trans hletter
    rw [utf8Size_of_lt (lt_of_isAlpha hlower), utf8Size_of_lt (lt_of_isAlpha hletter)]
  · rw [Bool.not_eq_true, Char.isAlpha, Bool.or_eq_false_iff] at hletter
    rw [Char.toLower_eq_of_not_isUpper (by simp [hletter.1])]

/-- Small letters take as many bytes. -/
theorem byteLength_map_toLower (cs : List Char) :
    byteLength (cs.map Char.toLower) = byteLength cs := by
  induction cs with
  | nil => rfl
  | cons c cs ih => rw [List.map_cons, byteLength_cons, byteLength_cons, utf8Size_toLower, ih]

/-- One text opens another one if the start of the other one is the same up to case. -/
theorem startsIgnoringCase_iff {typed text : List Char} : startsIgnoringCase typed text = true ↔
    ∃ start rest, text = start ++ rest ∧ start.map Char.toLower = typed.map Char.toLower := by
  rw [startsIgnoringCase, List.isPrefixOf_iff_prefix]
  constructor
  · rintro ⟨rest, hrest⟩
    obtain ⟨start, behind, htext, hstart, -⟩ := List.map_eq_append_iff.mp hrest.symm
    exact ⟨start, behind, htext, hstart⟩
  · rintro ⟨start, rest, rfl, hstart⟩
    rw [List.map_append, hstart]
    exact List.prefix_append _ _

end Text

/-! ## Labels -/

/-- A name has no mark in front. -/
def IsUnmarked (name : List Char) : Prop :=
  name.head? ≠ some ':' ∧ name.head? ≠ some '@'

instance (name : List Char) : Decidable (IsUnmarked name) :=
  inferInstanceAs (Decidable (_ ∧ _))

/-- The label of a candidate is a name behind a mark. -/
def Candidate.Carries (mark : List Char) (c : Candidate) : Prop :=
  ∃ name, c.label.toList = mark ++ name ∧ IsUnmarked name

/-- The names of all tables. -/
def Knowledge.tables : List (List String) :=
  [Knowledge.properties.map (·.name), Knowledge.properties.flatMap (·.values),
    Knowledge.globalKeywords, Knowledge.namedColors.map Prod.fst,
    Knowledge.functions.map (·.name), Knowledge.atRules.map (·.name),
    Knowledge.pseudoClasses.map (·.name), Knowledge.pseudoElements.map (·.name),
    Knowledge.elements]

/-- No name of a table has a mark in front. -/
theorem isUnmarked_of_mem_table {names : List String} {name : String}
    (hnames : names ∈ Knowledge.tables) (h : name ∈ names) : IsUnmarked name.toList := by
  have htables : Knowledge.tables.all (fun names => names.all fun name =>
      let first := name.toByteArray.data.toList.head?
      first ≠ some ':'.toUInt8 && first ≠ some '@'.toUInt8) = true := by decide +kernel
  have hself := List.all_eq_true.mp (List.all_eq_true.mp htables _ hnames) _ h
  simp only [toList_toByteArray, Bool.and_eq_true, decide_eq_true_eq, ne_eq] at hself
  rwa [head?_bytes_eq_some_iff (by decide), head?_bytes_eq_some_iff (by decide)] at hself

/-- A name without a mark in front stays so with another one behind it. -/
theorem IsUnmarked.append {name behind : List Char} (h : IsUnmarked name)
    (hbehind : IsUnmarked behind) : IsUnmarked (name ++ behind) := by
  cases name with
  | nil => exact hbehind
  | cons c name => exact h

/-- A candidate by its name alone carries no mark. -/
theorem carries_bare {name : String} (h : IsUnmarked name.toList) (kind : CompletionKind) :
    (Candidate.bare kind name).Carries [] :=
  ⟨name.toList, rfl, h⟩

/-- The entries of a table have the marks that they are given. -/
theorem carries_of_mem_entries {table : List Knowledge.Entry} {kind : CompletionKind}
    (mark : String) {behind : String} {c : Candidate}
    (htable : table.map (·.name) ∈ Knowledge.tables) (hbehind : IsUnmarked behind.toList)
    (h : c ∈ table.map (Candidate.ofEntry kind mark behind)) :
    c.Carries mark.toList := by
  obtain ⟨e, he, rfl⟩ := List.mem_map.mp h
  have hname := isUnmarked_of_mem_table htable (List.mem_map_of_mem he)
  refine ⟨e.name.toList ++ behind.toList, ?_, hname.append hbehind⟩
  simp only [Candidate.ofEntry, String.toList_append, List.append_assoc]

/-- A property that is found is one of those that are known. -/
theorem mem_properties_of_anyProperty? {name : String} {p : Knowledge.Property}
    (h : Knowledge.anyProperty? name = some p) : p ∈ Knowledge.properties := by
  simp only [Knowledge.anyProperty?, Knowledge.property?, Option.or_eq_some_iff] at h
  rcases h with h | ⟨-, h⟩ <;> exact List.mem_of_find?_eq_some h

/-- What can be the value of a property has no mark in front. -/
theorem carries_of_mem_values {property : String} {c : Candidate}
    (h : c ∈ Candidate.values property) : c.Carries [] := by
  rw [Candidate.values] at h
  simp only [List.mem_append] at h
  rcases h with ((h | h) | h) | h
  · obtain ⟨name, hname, rfl⟩ := List.mem_map.mp h
    obtain ⟨p, hp, hvalue⟩ : ∃ p ∈ Knowledge.properties, name ∈ p.values := by
      cases hknown : Knowledge.anyProperty? property with
      | none => simp [hknown] at hname
      | some p => exact ⟨p, mem_properties_of_anyProperty? hknown, by simpa [hknown] using hname⟩
    exact carries_bare (isUnmarked_of_mem_table (by simp [Knowledge.tables])
      (List.mem_flatMap_of_mem (f := fun p => p.values) hp hvalue)) _
  · obtain ⟨name, hname, rfl⟩ := List.mem_map.mp h
    exact carries_bare (isUnmarked_of_mem_table (by simp [Knowledge.tables]) hname) _
  · obtain ⟨name, hname, rfl⟩ := List.mem_map.mp h
    have hcolor : name ∈ Knowledge.namedColors.map Prod.fst := by
      split at hname
      · exact hname
      · cases hname
    exact carries_bare (isUnmarked_of_mem_table (by simp [Knowledge.tables]) hcolor) _
  · exact carries_of_mem_entries "" (by simp [Knowledge.tables]) (by decide) h

/-- The names of custom properties start with dashes. -/
theorem Stylesheet.carries_of_mem_customValues (sheet : Stylesheet) (source : String)
    {p : String × String} (h : p ∈ sheet.customValues source) :
    (Candidate.ofCustom p).Carries [] := by
  have hget := (Dictionary.get?_eq_some_iff (sheet.nodup_keys_customValues source)).mpr h
  rw [sheet.get?_customValues, Option.map_eq_some_iff] at hget
  obtain ⟨d, hd, -⟩ := hget
  obtain ⟨hmem, hname⟩ := List.mem_filter.mp (List.mem_of_getLast? hd)
  have hcustom := List.isPrefixOf_iff_prefix.mp (List.mem_filter.mp hmem).2
  obtain ⟨rest, hrest⟩ := hcustom
  have hname : d.property.value = p.1 := of_decide_eq_true hname
  rw [hname] at hrest
  refine ⟨p.1.toList, rfl, ?_⟩
  rw [← hrest]
  exact ⟨by simp, by simp⟩

/-- The candidates of a request have the mark of its context in front, and no other. -/
theorem Stylesheet.carries_of_mem_candidates (sheet : Stylesheet) (source : String)
    {request : CompletionRequest} {c : Candidate} (h : c ∈ sheet.candidates source request)
    (htop : request.context ≠ .topLevel) : c.Carries request.context.mark := by
  unfold candidates at h
  split at h <;> rename_i hcontext <;> rw [hcontext]
  · exact absurd h List.not_mem_nil
  · obtain ⟨p, hp, rfl⟩ := List.mem_map.mp h
    exact ⟨p.name.toList, rfl,
      isUnmarked_of_mem_table (by simp [Knowledge.tables]) (List.mem_map_of_mem hp)⟩
  · split at h
    · obtain ⟨p, hp, rfl⟩ := List.mem_map.mp h
      exact sheet.carries_of_mem_customValues source ((List.mergeSort_perm _ _).mem_iff.mp hp)
    · exact carries_of_mem_values h
  · exact carries_of_mem_entries "@" (by simp [Knowledge.tables]) (by decide) h
  · exact carries_of_mem_entries ":" (by simp [Knowledge.tables]) (by decide) h
  · exact carries_of_mem_entries "::" (by simp [Knowledge.tables]) (by decide) h
  · obtain ⟨name, hname, rfl⟩ := List.mem_map.mp h
    exact carries_bare (isUnmarked_of_mem_table (by simp [Knowledge.tables]) hname) _
  · exact absurd hcontext htop

/-- A candidate that starts with what was typed, its mark aside, starts with mark and typed name. -/
theorem startsIgnoringCase_of_matchesTyped {context : CompletionContext} {typed : String}
    {c : Candidate} (h : c.Carries context.mark) (hmatches : c.matchesTyped typed = true) :
    startsIgnoringCase (context.mark ++ typed.toList) c.label.toList = true := by
  obtain ⟨name, hlabel, hname⟩ := h
  have hmark : ∀ m ∈ context.mark, (m = ':' || m = '@') = true := by
    cases context <;> simp [CompletionContext.mark]
  have hdrop : name.dropWhile (fun c => c = ':' || c = '@') = name := by
    cases name with
    | nil => rfl
    | cons d name => exact List.dropWhile_cons_of_neg (by simpa [IsUnmarked] using hname)
  rw [Candidate.matchesTyped, hlabel, List.dropWhile_append_of_pos hmark, hdrop,
    startsIgnoringCase, List.isPrefixOf_iff_prefix] at hmatches
  rw [hlabel, startsIgnoringCase, List.isPrefixOf_iff_prefix, List.map_append, List.map_append]
  exact (List.prefix_append_right_inj _).mpr hmatches

/-! ## Slices -/

namespace Sliced

/-- The source text of the value of a declaration. -/
def valueText (source : String) (d : Declaration) : Sliced String :=
  match d.value with
  | some v => (v.span.cut? source).map String.ofList
  | none => some ""

/-- The values of the custom properties that a stylesheet declares. -/
def customValues (sheet : Stylesheet) (source : String) : Sliced CustomValues :=
  sheet.customDeclarations.foldlM (fun values d => (valueText source d).map (values.put d.name)) []

/-- The candidates of a request. -/
def candidates (sheet : Stylesheet) (source : String) (request : CompletionRequest) :
    Sliced (List Candidate) :=
  match request.context with
  | .value property => do
    let before ← takeBytes request.replace.start source.toList
    if wantsCustom before request.typed then
      let values ← customValues sheet source
      some ((CustomValues.sorted values).map Candidate.ofCustom)
    else some (Candidate.values property)
  | _ => some (sheet.candidates source request)

/-- Whether a text opens another one, up to the case of ASCII letters. The other one is sliced
behind as many bytes, if that is between characters. -/
def opens (typed text : List Char) : Sliced Bool :=
  if byteLength typed ≤ byteLength text &&
      (String.Pos.Raw.mk (byteLength typed)).isValid (String.ofList text) then
    (takeBytes (byteLength typed) text).map fun start =>
      start.map Char.toLower = typed.map Char.toLower
  else some false

/-- Whether a candidate is offered. -/
def isOffered (showDeprecated : Bool) (typed : List Char) (c : Candidate) : Sliced Bool :=
  if c.obsolete && !showDeprecated then some false
  else opens typed (c.label.toList.dropWhile fun c => c = ':' || c = '@')

/-- The names offered at an offset. -/
def completionsAt (sheet : Stylesheet) (source : String) (offset : Nat) (showDeprecated : Bool) :
    Sliced (List CompletionItem) := do
  let request ← requestAt sheet source offset
  let candidates ← candidates sheet source request
  let offered ← candidates.filterM (isOffered showDeprecated request.typed.toList)
  some (offered.map (Candidate.item request.replace))

/-- What is sliced behind as many bytes as were typed is between characters. -/
theorem opens_eq (typed text : List Char) :
    opens typed text = some (startsIgnoringCase typed text) := by
  have hplace (start rest : List Char) (htext : text = start ++ rest)
      (hstart : byteLength start = byteLength typed) : opens typed text =
        some (decide (start.map Char.toLower = typed.map Char.toLower)) := by
    have hvalid : (String.Pos.Raw.mk (byteLength typed)).isValid (String.ofList text) = true := by
      rw [String.Pos.Raw.isValid_eq_true_iff, ← hstart]
      exact isValid_of_toList_eq (String.toList_ofList.trans htext)
    have hle : byteLength typed ≤ byteLength text := by
      rw [htext, byteLength_append, hstart]
      exact Nat.le_add_right ..
    have htake : takeBytes (byteLength typed) text = some start := by
      rw [htext, ← hstart]
      exact takeBytes_byteLength_append _ _
    unfold opens
    rw [hvalid, decide_eq_true hle, Bool.true_and, if_pos rfl, htake, Option.map_some]
  by_cases hstarts : startsIgnoringCase typed text = true
  · obtain ⟨start, rest, htext, hstart⟩ := startsIgnoringCase_iff.mp hstarts
    have hsize := congrArg byteLength hstart
    rw [byteLength_map_toLower, byteLength_map_toLower] at hsize
    rw [hplace start rest htext hsize, hstarts, decide_eq_true hstart]
  · rw [Bool.eq_false_iff.mpr hstarts]
    by_cases hvalid : (String.Pos.Raw.mk (byteLength typed)).IsValid (String.ofList text)
    · obtain ⟨i, hi⟩ := exists_take_of_isValid hvalid
      rw [String.toList_ofList] at hi
      have htext := (List.take_append_drop i text).symm
      rw [hplace _ _ htext hi.symm, decide_eq_false]
      exact fun hstart => hstarts (startsIgnoringCase_iff.mpr ⟨_, _, htext, hstart⟩)
    · rw [← String.Pos.Raw.isValid_eq_true_iff, Bool.not_eq_true] at hvalid
      unfold opens
      rw [hvalid, Bool.and_false]
      rfl

/-- Whether a candidate is offered is the same by slices. -/
theorem isOffered_eq (showDeprecated : Bool) (typed : String) (c : Candidate) :
    isOffered showDeprecated typed.toList c =
      some ((showDeprecated || !c.obsolete) && c.matchesTyped typed) := by
  rw [isOffered, opens_eq, Candidate.matchesTyped]
  cases showDeprecated <;> cases c.obsolete <;> rfl

/-- A filter whose tests all succeed is the filter itself. -/
theorem filterM_eq {α : Type} {f : α → Sliced Bool} {p : α → Bool} (h : ∀ x, f x = some (p x))
    (xs : List α) : xs.filterM f = some (xs.filter p) := by
  have haux (acc : List α) : xs.filterAuxM f acc = some ((xs.filter p).reverse ++ acc) := by
    induction xs generalizing acc with
    | nil => rfl
    | cons x xs ih =>
      rw [List.filterAuxM, h]
      simp only [Option.bind_eq_bind, Option.bind_some, ih]
      cases hx : p x <;> simp [hx]
  rw [List.filterM, haux]
  simp

/-- The custom properties of a source have their values sliced between characters. -/
theorem customValues_eq (source : String) :
    customValues (parse source).1 source = some ((parse source).1.customValues source) := by
  have hvalue : ∀ d ∈ (parse source).1.customDeclarations,
      valueText source d = some (d.valueText source) := by
    intro d hd
    have hbelow := below_of_mem_declarationsOf _ (List.mem_of_mem_filter hd)
    have hclean := (parse_madeOf source hbelow).isClean.2 d
    unfold valueText Declaration.valueText
    cases hv : d.value with
    | none => rfl
    | some v =>
      have hspan := (hclean v rfl hv).cut?_eq
      simp only [hspan]
      rfl
  rw [customValues, Stylesheet.customValues]
  generalize (parse source).1.customDeclarations = ds at hvalue ⊢
  generalize ([] : CustomValues) = values
  induction ds generalizing values with
  | nil => rfl
  | cons d ds ih =>
    obtain ⟨hd, hds⟩ := List.forall_mem_cons.mp hvalue
    rw [List.foldlM_cons, hd, List.foldl_cons]
    exact ih hds _

/-- The candidates are the same by slices. -/
theorem candidates_eq (source : String) (offset : Nat) :
    candidates (parse source).1 source ((parse source).1.requestAt source offset) =
      some ((parse source).1.candidates source ((parse source).1.requestAt source offset)) := by
  obtain ⟨after, hsource⟩ := exists_append_before offset source.toList
  obtain ⟨⟨head, hfront, hreplace⟩, -⟩ := (parse source).1.endsText_requestAt source offset
  generalize (parse source).1.requestAt source offset = request at hfront hreplace ⊢
  have hstart : request.replace.start = byteLength head := congrArg Span.start hreplace
  unfold candidates Stylesheet.candidates
  rw [hfront, List.append_assoc] at hsource
  cases request.context <;> try rfl
  rw [hstart, hsource, takeBytes_byteLength_append, before_byteLength_append, customValues_eq]
  simp only [Option.bind_eq_bind, Option.bind_some]
  split <;> rfl

/-- On the tree of a source no slice splits a character, and the same names are offered. -/
theorem completionsAt_eq (source : String) (offset : Nat) (showDeprecated : Bool) :
    completionsAt (parse source).1 source offset showDeprecated =
      some ((parse source).1.completionsAt source offset showDeprecated) := by
  simp only [completionsAt, requestAt_eq, candidates_eq, Option.bind_eq_bind, Option.bind_some,
    filterM_eq (isOffered_eq showDeprecated _)]
  rfl

end Sliced

/-! ## Items -/

/-- An item is offered if it is that of a candidate that goes on with what was typed and is not
obsolete, unless such are wanted. -/
theorem Stylesheet.mem_completionsAt_iff {sheet : Stylesheet} {source : String} {offset : Nat}
    {showDeprecated : Bool} {item : CompletionItem} :
    item ∈ sheet.completionsAt source offset showDeprecated ↔
      ∃ c ∈ sheet.candidates source (sheet.requestAt source offset),
        (c.obsolete = true → showDeprecated = true) ∧
          c.matchesTyped (sheet.requestAt source offset).typed = true ∧
          c.item (sheet.requestAt source offset).replace = item := by
  have hshown (c : Candidate) : (showDeprecated || !c.obsolete) = true ↔
      (c.obsolete = true → showDeprecated = true) := by
    cases showDeprecated <;> cases c.obsolete <;> decide
  simp only [completionsAt, List.mem_map, List.mem_filter, Bool.and_eq_true, hshown, and_assoc]

/-- What is replaced opens the label of every candidate that is offered. -/
theorem Stylesheet.label_opens (sheet : Stylesheet) (source : String) {front : List Char}
    {request : CompletionRequest} {c : Candidate} (h : request.EndsText front)
    (hc : c ∈ sheet.candidates source request) (hmatches : c.matchesTyped request.typed = true) :
    (request.context.mark ++ request.typed.toList).map Char.toLower <+:
      c.label.toList.map Char.toLower := by
  by_cases hcontext : request.context = .topLevel
  · rw [hcontext, h.untyped hcontext]
    exact List.nil_prefix
  · exact List.isPrefixOf_iff_prefix.mp (startsIgnoringCase_of_matchesTyped
      (sheet.carries_of_mem_candidates source hc hcontext) hmatches)

/-- Items keep what was typed at an offset. The span of the request ends at the last place between
characters up to the offset, and every item replaces it. The source text that the span covers opens
the label of the item, up to the case of ASCII letters. Names whose use is discouraged are offered on
demand alone. -/
structure CompletionRequest.KeepsTyped (request : CompletionRequest) (source : String)
    (offset : Nat) (showDeprecated : Bool) (items : List CompletionItem) : Prop where
  stop : IsGreatest {place | (String.Pos.Raw.mk place).IsValid source ∧
    place ≤ min offset (size source)} request.replace.stop
  replace : ∀ item ∈ items, item.replace = request.replace
  opens : ∃ typed, slice? request.replace.start request.replace.stop source.toList = some typed ∧
    ∀ item ∈ items, typed.map Char.toLower <+: item.label.toList.map Char.toLower
  deprecated : ∀ item ∈ items, item.deprecated = true → showDeprecated = true

/-- Completion keeps what was typed, and no slice on the way splits a character. -/
theorem completions_keep_typed (source : String) (offset : Nat) (showDeprecated : Bool) :
    ((parse source).1.requestAt source offset).KeepsTyped source offset showDeprecated
        ((parse source).1.completionsAt source offset showDeprecated) ∧
      Sliced.requestAt (parse source).1 source offset =
        some ((parse source).1.requestAt source offset) ∧
      Sliced.completionsAt (parse source).1 source offset showDeprecated =
        some ((parse source).1.completionsAt source offset showDeprecated) := by
  refine ⟨?_, Sliced.requestAt_eq source offset, Sliced.completionsAt_eq source offset showDeprecated⟩
  obtain ⟨after, hsource⟩ := exists_append_before offset source.toList
  have hends := (parse source).1.endsText_requestAt source offset
  constructor
  case stop =>
    obtain ⟨head, -, hreplace⟩ := hends.replaced
    rw [hreplace]
    exact isGreatest_byteLength_before source offset
  case replace =>
    intro item hitem
    obtain ⟨c, -, -, -, rfl⟩ := Stylesheet.mem_completionsAt_iff.mp hitem
    rfl
  case opens =>
    have hslice := hends.slice?_eq after
    rw [← hsource] at hslice
    refine ⟨_, hslice, fun item hitem => ?_⟩
    obtain ⟨c, hc, -, hmatches, rfl⟩ := Stylesheet.mem_completionsAt_iff.mp hitem
    exact (parse source).1.label_opens source hends hc hmatches
  case deprecated =>
    intro item hitem hold
    obtain ⟨c, -, hshown, -, rfl⟩ := Stylesheet.mem_completionsAt_iff.mp hitem
    exact hshown hold

/-- Behind a letter of two bytes the name of an at-rule is offered for its mark and first letters,
at an offset that lies behind the end of the text. -/
theorem completions_keep_typed_of_clamped :
    ∃ item ∈ (parse "é@ME").1.completionsAt "é@ME" 9 false,
      item.label = "@media" ∧ item.replace = ⟨2, 5⟩ ∧ item.deprecated = false ∧
        ∃ typed, slice? item.replace.start item.replace.stop "é@ME".toList = some typed ∧
          typed.map Char.toLower <+: item.label.toList.map Char.toLower := by
  have hkeeps := (completions_keep_typed "é@ME" 9 false).1
  obtain ⟨typed, hslice, hopens⟩ := hkeeps.opens
  have hrequest : ((parse "é@ME").1.requestAt "é@ME" 9).replace = ⟨2, 5⟩ := by decide +kernel
  have hlabels : "@media" ∈ ((parse "é@ME").1.completionsAt "é@ME" 9 false).map (·.label) := by
    decide +kernel
  obtain ⟨item, hitem, hlabel⟩ := List.mem_map.mp hlabels
  have hreplace := hkeeps.replace item hitem
  refine ⟨item, hitem, hlabel, hreplace.trans hrequest, ?_, typed, hreplace ▸ hslice,
    hopens item hitem⟩
  exact Bool.eq_false_iff.mpr fun hold => Bool.false_ne_true (hkeeps.deprecated item hitem hold)

end CssWorkbench
