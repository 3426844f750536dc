import CssWorkbench.Proofs.Workspace.DeclaredValues
import CssWorkbench.Proofs.Workspace.IndexConsistency

/-!
# The document that was indexed last

The index keeps one owner for every name and not the order in which documents came in. A document
that is indexed takes over the names it declares, so that the owner is the document indexed last of
those that declare the name. When an owner goes, any other document that declares the name may take
over. The order is then lost for that name, unless at most one document is left to take over, and it
comes back when a document that declares the name is indexed.
-/

namespace CssWorkbench.PropertyIndex

open Dictionary

/-- The value that a text declares for a name: that of the last declaration, without the blanks
around it. -/
def declaredValue? (text name : String) : Option String :=
  ((parse text).1.lastDeclaration? name).map fun d => Text.trimString (d.valueText text)

/-- What a text is indexed with is what it declares. -/
theorem get?_declaredIn (text name : String) :
    (declaredIn text).get? name = declaredValue? text name := by
  refine Option.ext fun value => ?_
  rw [get?_eq_some_iff (nodup_keys_declaredIn text), mem_declaredIn, declaredValue?,
    Option.map_eq_some_iff]
  exact exists_congr fun d => and_congr_right fun _ => eq_comm

/-- A call of the index. -/
inductive Call (U : Type)
  | indexText (uri : U) (text : String)
  | remove (uri : U)
deriving DecidableEq

namespace Call

variable {U : Type}

/-- The document that a call is about. -/
def subject : Call U → U
  | indexText uri _ => uri
  | remove uri => uri

/-- The value that a document which comes in with the call declares for a name. -/
def declares? : Call U → String → Option String
  | indexText _ text, name => declaredValue? text name
  | remove _, _ => none

end Call

variable {U : Type} [DecidableEq U]

/-- The index after a call. -/
def perform (index : PropertyIndex U) : Call U → PropertyIndex U
  | .indexText uri text => index.indexText uri text
  | .remove uri => index.remove uri

/-- The indexes that calls lead to, the last call first. Between two calls the order in which
documents are found may change. -/
inductive ReachedBy : List (Call U) → PropertyIndex U → Prop
  | empty : ReachedBy [] .empty
  | call {calls : List (Call U)} {index : PropertyIndex U} (before : ReachedBy calls index)
      (c : Call U) :
      ReachedBy (c :: calls) (index.perform c)
  | reordered {calls : List (Call U)} {index : PropertyIndex U} {documents : Dictionary U CustomValues}
      (before : ReachedBy calls index) (order : documents.Perm index.documents) :
      ReachedBy calls ⟨documents, index.latest⟩

/-- The texts of the documents that are present, the one indexed last first. -/
def standing : List (Call U) → Dictionary U String
  | [] => []
  | .indexText uri text :: calls => (uri, text) :: (standing calls).erase uri
  | .remove uri :: calls => (standing calls).erase uri

/-- The documents that are present and declare a name, each with its value, the one indexed last
first. -/
def declarers (calls : List (Call U)) (name : String) : Dictionary U String :=
  (standing calls).filterMap fun d => (declaredValue? d.2 name).map fun value => (d.1, value)

/-- The document indexed last of those that are present and declare a name, with its value. -/
def mostRecent? (calls : List (Call U)) (name : String) : Option (U × String) :=
  (declarers calls name).head?

/-- Whether the order in which documents came in still decides who owns a name. It does when the
last call declares the name or leaves at most one document that does, and it goes on doing so as
long as the most recent declarer stays. -/
def settled : List (Call U) → String → Bool
  | [], _ => true
  | c :: calls, name =>
    (c.declares? name).isSome || (declarers (c :: calls) name).length ≤ 1 ||
      (settled calls name && (mostRecent? calls name).all fun d => d.1 ≠ c.subject)

variable {calls : List (Call U)} {c : Call U} {index : PropertyIndex U} {uri : U} {name value : String}
  {d : U × String}

/-- An index that some calls lead to is one that calls lead to. -/
theorem ReachedBy.reached (h : ReachedBy calls index) : Reached index := by
  induction h with
  | empty => exact .empty
  | call _ c ih =>
    cases c with
    | indexText uri text => exact ih.indexed uri text
    | remove uri => exact ih.removed uri
  | reordered _ order ih => exact ih.reordered order

/-! ## Who is there -/

/-- Each document stands once. -/
theorem nodup_keys_standing (calls : List (Call U)) : (standing calls).keys.Nodup := by
  induction calls with
  | nil => exact List.nodup_nil
  | cons c calls ih =>
    have herase := nodup_keys_erase ih c.subject
    cases c with
    | indexText uri text =>
      refine List.nodup_cons.mpr ⟨?_, herase⟩
      exact get?_eq_none_iff.mp (by rw [get?_erase, if_pos rfl])
    | remove uri => exact herase

/-- The documents that the index keeps are those that are present. -/
theorem ReachedBy.get?_documents (h : ReachedBy calls index) (uri : U) :
    index.documents.get? uri = ((standing calls).get? uri).map declaredIn := by
  induction h with
  | empty => rfl
  | @call calls index before c ih =>
    cases c with
    | indexText u text =>
      rw [perform, indexText, get?_documents_insert, standing, get?]
      split
      · rfl
      · next hne => rw [get?_erase, if_neg hne, ih]
    | remove u =>
      rw [perform, get?_documents_remove, standing, get?_erase]
      split
      · rfl
      · exact ih
  | reordered before order ih =>
    rw [get?_of_perm before.reached.agrees.documents_once order, ih]

/-- The documents that declare a name in the index are those that are present and do. -/
theorem ReachedBy.declares_iff (h : ReachedBy calls index) :
    index.Declares uri name value ↔ (uri, value) ∈ declarers calls name := by
  simp only [Declares, declarers, h.get?_documents, List.mem_filterMap, Option.map_eq_some_iff]
  constructor
  · rintro ⟨_, ⟨text, htext, rfl⟩, hmem⟩
    refine ⟨(uri, text), mem_of_get? htext, value, ?_, rfl⟩
    rw [← get?_declaredIn]
    exact get?_of_mem (nodup_keys_declaredIn text) hmem
  · rintro ⟨⟨u, text⟩, hmem, v, hvalue, hpair⟩
    cases hpair
    rw [← get?_declaredIn] at hvalue
    exact ⟨_, ⟨text, get?_of_mem (nodup_keys_standing calls) hmem, rfl⟩, mem_of_get? hvalue⟩

omit [DecidableEq U] in
/-- What a text that declares one name declares for it. -/
theorem declares?_of_declaredIn {text : String} (h : declaredIn text = [(name, value)])
    (uri : U) : (Call.indexText uri text).declares? name = some value := by
  rw [Call.declares?, ← get?_declaredIn, h, get?, if_pos rfl]

/-- A document that is removed is taken from those that declare a name. -/
theorem declarers_remove (uri : U) (calls : List (Call U)) (name : String) :
    declarers (.remove uri :: calls) name = (declarers calls name).erase uri := by
  simp only [declarers, standing, erase, List.filter_filterMap, List.filterMap_filter]
  refine List.filterMap_congr fun d _ => ?_
  by_cases hd : d.1 = uri <;> cases declaredValue? d.2 name <;> simp [hd, Option.filter]

/-- A document that declares a name comes in front of the others. -/
theorem declarers_of_declares (h : c.declares? name = some value) :
    declarers (c :: calls) name = (c.subject, value) :: (declarers calls name).erase c.subject := by
  cases c with
  | indexText uri text =>
    have hvalue : declaredValue? text name = some value := h
    rw [declarers, standing, List.filterMap_cons_some (by rw [hvalue]; rfl)]
    exact congrArg _ (declarers_remove uri calls name)
  | remove => cases h

/-- A call that does not declare a name takes the document it is about from those that do. -/
theorem declarers_of_not_declares (h : c.declares? name = none) :
    declarers (c :: calls) name = (declarers calls name).erase c.subject := by
  cases c with
  | indexText uri text =>
    have hnone : declaredValue? text name = none := h
    rw [declarers, standing, List.filterMap_cons_none (by rw [hnone]; rfl)]
    exact declarers_remove uri calls name
  | remove uri => exact declarers_remove uri calls name

/-! ## Who owns a name -/

/-- At most one document that declares a name leaves no choice. -/
theorem ReachedBy.owner_of_length_le (h : ReachedBy calls index)
    (hlength : (declarers calls name).length ≤ 1) :
    index.latest.get? name = mostRecent? calls name := by
  have hagrees := h.reached.agrees
  have hmem {owner : U × String} (hget : index.latest.get? name = some owner) :
      owner ∈ declarers calls name := h.declares_iff.mp (hagrees.declares hget)
  rw [mostRecent?]
  cases hdeclarers : declarers calls name with
  | nil =>
    refine Option.eq_none_iff_forall_ne_some.mpr fun owner hget => ?_
    have hin := hmem hget
    rw [hdeclarers] at hin
    cases hin
  | cons d others =>
    obtain rfl : others = [] := by
      rw [hdeclarers, List.length_cons] at hlength
      exact List.length_eq_zero_iff.mp (by omega)
    have hd : (d.1, d.2) ∈ declarers calls name := hdeclarers ▸ List.mem_cons_self
    obtain ⟨owner, hget⟩ := hagrees.owned (h.declares_iff.mpr hd)
    have hin := hmem hget
    rw [hdeclarers, List.mem_singleton] at hin
    rw [hget, hin]
    rfl

/-- A document that comes in owns the names it declares. -/
theorem owner_of_declares (h : c.declares? name = some value) :
    (index.perform c).latest.get? name = some (c.subject, value) := by
  cases c with
  | indexText uri text =>
    have hvalue : (declaredIn text).get? name = some value := (get?_declaredIn text name).trans h
    have hmem := mem_of_get? hvalue
    rcases takeOver_cases uri (index.remove uri).latest (declaredIn text) name with
      ⟨v, hown, hv⟩ | ⟨-, hno⟩
    · rw [← get?_eq_some_iff (nodup_keys_declaredIn text), hvalue] at hv
      exact Option.some.inj hv ▸ hown
    · exact absurd (mem_keys_of_mem hmem) hno
  | remove => cases h

/-- A call that does not declare a name does to it what the going of its document does. -/
theorem get?_perform_of_not_declares (h : c.declares? name = none) :
    (index.perform c).latest.get? name = (index.remove c.subject).latest.get? name := by
  cases c with
  | indexText uri text =>
    have hnone : (declaredIn text).get? name = none := (get?_declaredIn text name).trans h
    rcases takeOver_cases uri (index.remove uri).latest (declaredIn text) name with
      ⟨v, -, hv⟩ | ⟨hsame, -⟩
    · exact absurd (mem_keys_of_mem hv) (get?_eq_none_iff.mp hnone)
    · exact hsame
  | remove uri => rfl

/-- A document goes on owning a name when a call is about another one that does not declare it. -/
theorem owner_of_not_declares (h : c.declares? name = none)
    (hget : index.latest.get? name = some d) (hne : d.1 ≠ c.subject) :
    (index.perform c).latest.get? name = some d := by
  rw [get?_perform_of_not_declares h, get?_latest_remove hget hne]

/-- The document found first takes a name over that is given away. -/
theorem get?_foldl_release_of_owned {names : List String}
    (howner : index.latest.get? name = some (uri, value)) (hmem : name ∈ names)
    (hfound : declarer? index.documents name = some d) (hne : d.1 ≠ uri) :
    (names.foldl (release uri) index).latest.get? name = some d := by
  induction names generalizing index with
  | nil => cases hmem
  | cons released names ih =>
    rw [List.foldl_cons]
    by_cases hreleased : released = name
    · subst hreleased
      have htaken : (release uri index released).latest.get? released = some d := by
        simp [release, howner, hfound, get?_put]
      exact get?_foldl_release htaken hne names
    · refine ih ?_ ((List.mem_cons.mp hmem).resolve_left (Ne.symm hreleased)) ?_
      · unfold release
        split
        · exact howner
        · split
          · simp [get?_put, hreleased, howner]
          · simp [get?_erase, hreleased, howner]
      · rwa [release_documents]

/-- When the owner of a name goes, the document found first of the others takes it over. -/
theorem Agrees.owner_of_remove (h : index.Agrees)
    (howner : index.latest.get? name = some (uri, value))
    (hfound : declarer? (index.documents.erase uri) name = some d) (hne : d.1 ≠ uri) :
    (index.remove uri).latest.get? name = some d := by
  obtain ⟨entries, hentries, hmem⟩ := h.declares howner
  rw [PropertyIndex.remove, hentries]
  exact get?_foldl_release_of_owned howner (mem_keys_of_mem hmem) hfound hne

/-- As long as the order decides, the most recent declarer owns the name. -/
theorem ReachedBy.owner_of_settled (h : ReachedBy calls index)
    (hsettled : settled calls name = true) :
    index.latest.get? name = mostRecent? calls name := by
  induction h with
  | empty => rfl
  | @call calls index before c ih =>
    cases hdeclares : c.declares? name with
    | some value =>
      rw [owner_of_declares hdeclares, mostRecent?, declarers_of_declares hdeclares]
      rfl
    | none =>
      simp only [settled, hdeclares, Option.isSome_none, Bool.false_or, Bool.or_eq_true,
        decide_eq_true_eq, Bool.and_eq_true] at hsettled
      rcases hsettled with hlength | ⟨hbefore, hstays⟩
      · exact (before.call c).owner_of_length_le hlength
      · have howner := ih hbefore
        cases hrecent : mostRecent? calls name with
        | none =>
          -- Where nobody declares the name, nobody does after the call.
          refine (before.call c).owner_of_length_le ?_
          rw [declarers_of_not_declares hdeclares, List.head?_eq_none_iff.mp hrecent]
          exact Nat.zero_le 1
        | some d =>
          rw [hrecent] at howner hstays
          have hne : d.1 ≠ c.subject := by simpa using hstays
          obtain ⟨others, hothers⟩ := List.head?_eq_some_iff.mp hrecent
          rw [owner_of_not_declares hdeclares howner hne, mostRecent?,
            declarers_of_not_declares hdeclares, hothers, erase,
            List.filter_cons_of_pos (by simpa using hne), List.head?_cons]
  | reordered before order ih => exact ih hsettled

/-! ## Where the order is lost -/

/-- All calls lead to some index. -/
theorem exists_reachedBy (calls : List (Call U)) : ∃ index, ReachedBy calls index := by
  induction calls with
  | nil => exact ⟨_, .empty⟩
  | cons c calls ih =>
    obtain ⟨index, hindex⟩ := ih
    exact ⟨_, hindex.call c⟩

/-- The documents may be found in an order in which one that declares a name comes first. -/
theorem ReachedBy.exists_first (h : ReachedBy calls index) (hd : d ∈ declarers calls name) :
    ∃ entries others, entries.get? name = some d.2 ∧
      ReachedBy calls ⟨(d.1, entries) :: others, index.latest⟩ := by
  obtain ⟨entries, hentries, hmem⟩ := h.declares_iff.mpr hd
  obtain ⟨text, -, rfl⟩ := Option.map_eq_some_iff.mp ((h.get?_documents d.1).symm.trans hentries)
  obtain ⟨front, back, hsplit⟩ := List.append_of_mem (mem_of_get? hentries)
  exact ⟨_, front ++ back, get?_of_mem (nodup_keys_declaredIn text) hmem,
    h.reordered (hsplit ▸ List.perm_middle.symm)⟩

/-- Where the order no longer decides, any document that declares the name may own it. -/
theorem exists_owner_of_not_settled (h : settled calls name = false)
    (hd : d ∈ declarers calls name) :
    ∃ index, ReachedBy calls index ∧ index.latest.get? name = some d := by
  induction calls with
  | nil => cases h
  | cons c calls ih =>
    simp only [settled, Bool.or_eq_false_iff, Option.isSome_eq_false_iff,
      Option.isNone_iff_eq_none] at h
    obtain ⟨⟨hdeclares, -⟩, hlost⟩ := h
    rw [declarers_of_not_declares hdeclares] at hd
    obtain ⟨hd, hother⟩ := List.mem_filter.mp hd
    have hne : d.1 ≠ c.subject := by simpa using hother
    cases hbefore : settled calls name with
    | false =>
      obtain ⟨index, hindex, howner⟩ := ih hbefore hd
      exact ⟨_, hindex.call c, owner_of_not_declares hdeclares howner hne⟩
    | true =>
      -- The call is about the owner, and the document in question is found first.
      obtain ⟨index, hindex⟩ := exists_reachedBy calls
      have howner := hindex.owner_of_settled hbefore
      rw [hbefore, Bool.true_and, ← howner] at hlost
      obtain ⟨entries, others, hvalue, hfirst⟩ := hindex.exists_first hd
      refine ⟨_, hfirst.call c, ?_⟩
      rw [get?_perform_of_not_declares hdeclares]
      cases hget : index.latest.get? name with
      | none =>
        rw [hget] at hlost
        cases hlost
      | some m =>
        obtain ⟨owner, value⟩ := m
        rw [hget] at hlost
        obtain rfl : owner = c.subject := by simpa using hlost
        refine hfirst.reached.agrees.owner_of_remove hget ?_ hne
        simp [declarer?, erase, hne, hvalue]

/-- After any calls a name has no value exactly if no document that is present declares it, and it
has no value but one that such a document declares. As long as the order in which documents came in
decides, that is the value of the most recently indexed document; where it no longer does, it may
be that of any of them. -/
theorem most_recent_document_wins (calls : List (Call U)) (name : String) :
    (∀ index, ReachedBy calls index →
      (index.resolve name = none ↔ mostRecent? calls name = none) ∧
      (∀ value, index.resolve name = some value → ∃ uri, (uri, value) ∈ declarers calls name) ∧
      (settled calls name = true →
        index.resolve name = (mostRecent? calls name).map Prod.snd)) ∧
    (settled calls name = false → ∀ uri value, (uri, value) ∈ declarers calls name →
      ∃ index, ReachedBy calls index ∧ index.resolve name = some value) := by
  refine ⟨fun index h => ?_, fun hlost uri value hd => ?_⟩
  · have hagrees := h.reached.agrees
    refine ⟨?_, fun value hvalue => ?_, fun hsettled => ?_⟩
    · rw [mostRecent?, List.head?_eq_none_iff, List.eq_nil_iff_forall_not_mem, ← not_iff_not,
        ← Ne, Option.ne_none_iff_exists', hagrees.resolve_iff]
      simp only [h.declares_iff, not_forall, not_not, Prod.exists]
    · obtain ⟨⟨owner, v⟩, hget, rfl⟩ := Option.map_eq_some_iff.mp hvalue
      exact ⟨owner, h.declares_iff.mp (hagrees.declares hget)⟩
    · rw [resolve, h.owner_of_settled hsettled]
  · obtain ⟨index, hindex, howner⟩ := exists_owner_of_not_settled hlost hd
    exact ⟨index, hindex, by rw [resolve, howner, Option.map_some]⟩

/-- Of three documents that declare `--b` the first one goes, and the last one goes on owning it. -/
theorem most_recent_document_wins_of_three :
    ReachedBy [.remove (.ofFile ["a"]), .indexText (.ofFile ["d"]) "x\x7b--b:3\x7d",
        .indexText (.ofFile ["c"]) "x\x7b--b:2\x7d", .indexText (.ofFile ["a"]) "x\x7b--b:1\x7d"]
      (((((empty (U := Url)).indexText (.ofFile ["a"]) "x\x7b--b:1\x7d").indexText (.ofFile ["c"])
        "x\x7b--b:2\x7d").indexText (.ofFile ["d"]) "x\x7b--b:3\x7d").remove (.ofFile ["a"])) ∧
    (((((empty (U := Url)).indexText (.ofFile ["a"]) "x\x7b--b:1\x7d").indexText (.ofFile ["c"])
      "x\x7b--b:2\x7d").indexText (.ofFile ["d"]) "x\x7b--b:3\x7d").remove
        (.ofFile ["a"])).resolve "--b" =
      (mostRecent? (U := Url) [.remove (.ofFile ["a"]), .indexText (.ofFile ["d"]) "x\x7b--b:3\x7d",
        .indexText (.ofFile ["c"]) "x\x7b--b:2\x7d",
        .indexText (.ofFile ["a"]) "x\x7b--b:1\x7d"] "--b").map Prod.snd := by
  have hreached := (((((ReachedBy.empty (U := Url)).call (.indexText (.ofFile ["a"]) "x\x7b--b:1\x7d")).call
    (.indexText (.ofFile ["c"]) "x\x7b--b:2\x7d")).call
    (.indexText (.ofFile ["d"]) "x\x7b--b:3\x7d")).call (.remove (.ofFile ["a"])))
  have hthird : declaredIn "x\x7b--b:3\x7d" = [("--b", "3")] := by cbv
  have hlast := declares?_of_declaredIn hthird (Url.ofFile ["d"])
  have hstays : Url.ofFile ["d"] ≠ .ofFile ["a"] := by decide
  refine ⟨hreached, ((most_recent_document_wins _ "--b").1 _ hreached).2.2 ?_⟩
  simp [settled, hlast, mostRecent?, declarers_of_declares hlast, Call.subject, hstays]

/-- When the last of three documents goes, the one found first takes over and not the one that was
indexed last of the others. -/
theorem first_document_wins_of_removal :
    ¬ ∀ (calls : List (Call Url)) (index : VariableIndex) (name : String), ReachedBy calls index →
      index.resolve name = (mostRecent? calls name).map Prod.snd := by
  intro hwins
  have h := hwins _ _ "--b" (((((ReachedBy.empty (U := Url)).call (.indexText (.ofFile ["a"])
    "x\x7b--b:1\x7d")).call (.indexText (.ofFile ["c"]) "x\x7b--b:2\x7d")).call
    (.indexText (.ofFile ["d"]) "x\x7b--b:3\x7d")).call (.remove (.ofFile ["d"])))
  have hfirst : declaredIn "x\x7b--b:1\x7d" = [("--b", "1")] := by cbv
  have hsecond : declaredIn "x\x7b--b:2\x7d" = [("--b", "2")] := by cbv
  have hthird : declaredIn "x\x7b--b:3\x7d" = [("--b", "3")] := by cbv
  simp only [perform, indexText, mostRecent?, declarers_remove, hfirst, hsecond, hthird,
    declarers_of_declares (declares?_of_declaredIn hfirst _),
    declarers_of_declares (declares?_of_declaredIn hsecond _),
    declarers_of_declares (declares?_of_declaredIn hthird _)] at h
  revert h
  decide

end CssWorkbench.PropertyIndex
