import Mathlib
import CssWorkbench.Workspace.VariableIndex

/-!
# The two maps of the index agree

The index keeps what every document declares, and for every name the document that owns it. The two
are changed apart: a document goes first, and then its names are given away one by one. `Agrees`
says what holds between the maps when no such change is under way, `AgreesBut` what holds while some
names of a document that went are still to be given away.

An index is `Reached` by calls in any order. Where several documents could take a name over, the one
found first does, and the order in which documents are found is left open: it may change before
every call.
-/

namespace CssWorkbench.PropertyIndex

open Dictionary

variable {U : Type} [DecidableEq U] {index : PropertyIndex U} {uri owner : U}
  {name value : String} {names : List String}
  {entries : CustomValues} {latest : Dictionary String (U × String)}

/-- A document of the index declares a name with a value. -/
def Declares (index : PropertyIndex U) (uri : U) (name value : String) : Prop :=
  ∃ entries, index.documents.get? uri = some entries ∧ (name, value) ∈ entries

/-- The names that the documents of the index declare, as often as they do. -/
def declaredNames (index : PropertyIndex U) : List String :=
  index.documents.flatMap fun d => keys d.2

/-- Documents and names are there once, and every name that is declared has an owner. -/
structure Covers (index : PropertyIndex U) : Prop where
  documents_once : index.documents.keys.Nodup
  names_once : index.latest.keys.Nodup
  owned : ∀ {uri name value}, index.Declares uri name value →
    ∃ owner, index.latest.get? name = some owner

/-- Besides, whoever owns a name declares it with the value kept for it. -/
structure Agrees (index : PropertyIndex U) : Prop extends Covers index where
  declares : ∀ {name owner value}, index.latest.get? name = some (owner, value) →
    index.Declares owner name value

/-- The same, except that a document that went may still own some names. -/
structure AgreesBut (uri : U) (names : List String) (index : PropertyIndex U) : Prop
    extends Covers index where
  declares : ∀ {name owner value}, index.latest.get? name = some (owner, value) →
    index.Declares owner name value ∨ owner = uri ∧ name ∈ names

/-! ## Giving names away -/

/-- A document that is found to declare a name does so, with the value that is found. -/
theorem declarer?_eq_some (hd : index.documents.keys.Nodup)
    (h : declarer? index.documents name = some (owner, value)) :
    index.Declares owner name value := by
  obtain ⟨⟨u, entries⟩, hmem, hfound⟩ := List.exists_of_findSome?_eq_some h
  obtain ⟨v, hv, hpair⟩ := Option.map_eq_some_iff.mp hfound
  cases hpair
  exact ⟨entries, get?_of_mem hd hmem, mem_of_get? hv⟩

/-- Where no document is found, none declares the name. -/
theorem declarer?_eq_none (h : declarer? index.documents name = none) :
    ¬ index.Declares uri name value := by
  rintro ⟨entries, hget, hmem⟩
  have hnone := List.findSome?_eq_none_iff.mp h (uri, entries) (mem_of_get? hget)
  exact get?_eq_none_iff.mp (Option.map_eq_none_iff.mp hnone) (mem_keys_of_mem hmem)

/-- Letting go of a name leaves the documents. -/
@[simp] theorem release_documents (uri : U) (index : PropertyIndex U) (name : String) :
    (release uri index name).documents = index.documents := by
  unfold release
  split
  · rfl
  · split <;> rfl

/-- Nobody loses a name to the going of somebody else. -/
theorem get?_release (hget : index.latest.get? name = some (owner, value)) (hne : owner ≠ uri)
    (released : String) : (release uri index released).latest.get? name = some (owner, value) := by
  unfold release
  split
  · exact hget
  · next hreleased =>
    have hother : released ≠ name := by
      rintro rfl
      exact hreleased (by simpa [hget] using hne)
    split
    · rw [get?_put, if_neg hother, hget]
    · rw [get?_erase, if_neg hother, hget]

/-- A name that another document owns stays with it when names are let go. -/
theorem get?_foldl_release (hget : index.latest.get? name = some (owner, value))
    (hne : owner ≠ uri) (names : List String) :
    (names.foldl (release uri) index).latest.get? name = some (owner, value) := by
  induction names generalizing index with
  | nil => exact hget
  | cons released names ih => exact ih (get?_release hget hne released)

/-- Giving one name away leaves one name less to give away. -/
theorem AgreesBut.release (h : AgreesBut uri (name :: names) index) :
    AgreesBut uri names (release uri index name) := by
  unfold PropertyIndex.release
  split
  · next howner =>
    -- Somebody else owns the name.
    refine ⟨h.toCovers, fun {n owner value} hget => ?_⟩
    rcases h.declares hget with hdeclares | ⟨rfl, hmem⟩
    · exact .inl hdeclares
    · rcases List.mem_cons.mp hmem with rfl | hmem
      · simp [hget] at howner
      · exact .inr ⟨rfl, hmem⟩
  · have hothers {n owner value} (hne : name ≠ n)
        (hget : index.latest.get? n = some (owner, value)) :
        index.Declares owner n value ∨ owner = uri ∧ n ∈ names :=
      (h.declares hget).imp_right fun hnames =>
        ⟨hnames.1, (List.mem_cons.mp hnames.2).resolve_left fun e => hne e.symm⟩
    split
    · next taker hfound =>
      refine ⟨⟨h.documents_once, nodup_keys_put h.names_once _ _, fun {u n v} hdeclares => ?_⟩,
        fun {n owner value} hget => ?_⟩
      · simp only [get?_put]
        split
        · exact ⟨taker, rfl⟩
        · exact h.owned hdeclares
      · simp only [get?_put] at hget
        split at hget
        · next heq =>
          cases hget
          exact .inl (heq ▸ declarer?_eq_some h.documents_once hfound)
        · next hne => exact hothers hne hget
    · next hnone =>
      refine ⟨⟨h.documents_once, nodup_keys_erase h.names_once _, fun {u n v} hdeclares => ?_⟩,
        fun {n owner value} hget => ?_⟩
      · simp only [get?_erase]
        split
        · next heq =>
          subst heq
          exact absurd hdeclares (declarer?_eq_none hnone)
        · exact h.owned hdeclares
      · simp only [get?_erase] at hget
        split at hget
        · cases hget
        · next hne => exact hothers hne hget

/-- When every name is given away, the maps agree. -/
theorem AgreesBut.releaseAll (h : AgreesBut uri names index) :
    Agrees (names.foldl (PropertyIndex.release uri) index) := by
  induction names generalizing index with
  | nil => exact ⟨h.toCovers, fun hget =>
      (h.declares hget).resolve_right fun ⟨_, hmem⟩ => List.not_mem_nil hmem⟩
  | cons name names ih => exact ih h.release

/-! ## Taking documents out and in -/

/-- Letting go of names leaves the documents. -/
theorem foldl_release_documents (uri : U) (names : List String) (index : PropertyIndex U) :
    (names.foldl (release uri) index).documents = index.documents := by
  induction names generalizing index with
  | nil => rfl
  | cons name names ih => exact (ih _).trans (release_documents uri index name)

/-- A document that is removed is gone, and every other one stays. -/
theorem get?_documents_remove (index : PropertyIndex U) (uri wanted : U) :
    (index.remove uri).documents.get? wanted =
      if uri = wanted then none else index.documents.get? wanted := by
  unfold remove
  split
  · rw [foldl_release_documents, get?_erase]
  · next hnone =>
    split
    · next heq => exact heq ▸ hnone
    · rfl

/-- When a document goes, what the others own stays as it is. -/
theorem get?_latest_remove (hget : index.latest.get? name = some (owner, value))
    (hne : owner ≠ uri) : (index.remove uri).latest.get? name = some (owner, value) := by
  unfold remove
  split
  · refine get?_foldl_release ?_ hne _
    exact hget
  · exact hget

/-- The maps agree again after a document went. -/
theorem Agrees.remove (h : index.Agrees) (uri : U) : (index.remove uri).Agrees := by
  unfold PropertyIndex.remove
  split
  · next entries hentries =>
    refine AgreesBut.releaseAll ⟨⟨nodup_keys_erase h.documents_once _, h.names_once,
      fun {u name value} ⟨es, hes, hmem⟩ => ?_⟩, fun {name owner value} hget => ?_⟩
    · rw [get?_erase] at hes
      split at hes
      · cases hes
      · exact h.owned ⟨es, hes, hmem⟩
    · obtain ⟨es, hes, hmem⟩ := h.declares hget
      by_cases howner : uri = owner
      · subst howner
        rw [hentries] at hes
        cases hes
        exact .inr ⟨rfl, mem_keys_of_mem hmem⟩
      · exact .inl ⟨es, by rw [get?_erase, if_neg howner, hes], hmem⟩
  · exact h

omit [DecidableEq U] in
/-- A name that a document takes over is its own with a value that it declares; any other name stays
as it was. -/
theorem takeOver_cases (uri : U) (latest : Dictionary String (U × String))
    (entries : CustomValues) (name : String) :
    (∃ value, (takeOver uri latest entries).get? name = some (uri, value) ∧
        (name, value) ∈ entries) ∨
      (takeOver uri latest entries).get? name = latest.get? name ∧ name ∉ keys entries := by
  rw [takeOver, get?_foldl_put entries Prod.fst fun p => (uri, p.2)]
  cases hlast : (entries.filter fun p => p.1 = name).getLast? with
  | some p =>
    obtain ⟨hmem, hname⟩ := List.mem_filter.mp (List.mem_of_getLast? hlast)
    exact .inl ⟨p.2, rfl, by simpa [← of_decide_eq_true hname] using hmem⟩
  | none =>
    refine .inr ⟨rfl, fun hmem => ?_⟩
    obtain ⟨p, hp, rfl⟩ := List.mem_map.mp hmem
    have hnone := List.filter_eq_nil_iff.mp (List.getLast?_eq_none_iff.mp hlast) p hp
    exact hnone (decide_eq_true rfl)

omit [DecidableEq U] in
/-- Each name has one owner after a document took names over. -/
theorem nodup_keys_takeOver (h : latest.keys.Nodup) (uri : U) (entries : CustomValues) :
    (takeOver uri latest entries).keys.Nodup :=
  nodup_keys_foldl_put h entries Prod.fst fun p => (uri, p.2)

/-- A document that is indexed declares the new values, and every other one stays as it was. -/
theorem get?_documents_insert (index : PropertyIndex U) (uri wanted : U) (entries : CustomValues) :
    (index.insert uri entries).documents.get? wanted =
      if uri = wanted then some entries else index.documents.get? wanted := by
  rw [insert, get?_put]
  split
  · rfl
  · next hne => rw [get?_documents_remove, if_neg hne]

/-- The maps agree again after a document came in the place of what it was before. -/
theorem Agrees.insert (h : index.Agrees) (uri : U) (entries : CustomValues) :
    (index.insert uri entries).Agrees := by
  have hremoved := h.remove uri
  have hnames := takeOver_cases uri (index.remove uri).latest entries
  refine ⟨⟨nodup_keys_put hremoved.documents_once _ _,
    nodup_keys_takeOver hremoved.names_once _ _, fun {u name value} ⟨es, hes, hmem⟩ => ?_⟩,
    fun {name owner value} hget => ?_⟩
  · rw [get?_documents_insert] at hes
    rcases hnames name with ⟨v, hown, -⟩ | ⟨hsame, hnew⟩
    · exact ⟨_, hown⟩
    · split at hes
      · cases hes
        exact absurd (mem_keys_of_mem hmem) hnew
      · next hne =>
        obtain ⟨owner, howner⟩ :=
          hremoved.owned ⟨es, by rw [get?_documents_remove, if_neg hne, hes], hmem⟩
        exact ⟨owner, hsame.trans howner⟩
  · change (takeOver uri (index.remove uri).latest entries).get? name = some (owner, value) at hget
    rcases hnames name with ⟨v, hown, hmem⟩ | ⟨hsame, -⟩
    · cases hown.symm.trans hget
      exact ⟨entries, by rw [get?_documents_insert, if_pos rfl], hmem⟩
    · obtain ⟨es, hes, hmem⟩ := hremoved.declares (hsame.symm.trans hget)
      rw [get?_documents_remove] at hes
      split at hes
      · cases hes
      · next hne => exact ⟨es, by rw [get?_documents_insert, if_neg hne, hes], hmem⟩

/-! ## Every index that calls lead to -/

/-- The indexes that calls lead to from the one without documents. Between two calls the order of
the documents may change. -/
inductive Reached : PropertyIndex U → Prop
  | empty : Reached .empty
  | indexed {index : PropertyIndex U} (before : Reached index) (uri : U) (text : String) :
      Reached (index.indexText uri text)
  | removed {index : PropertyIndex U} (before : Reached index) (uri : U) :
      Reached (index.remove uri)
  | reordered {index : PropertyIndex U} {documents : Dictionary U CustomValues}
      (before : Reached index) (order : documents.Perm index.documents) :
      Reached ⟨documents, index.latest⟩

/-- The empty index agrees with itself. -/
theorem agrees_empty : Agrees (U := U) .empty :=
  ⟨⟨List.nodup_nil, List.nodup_nil, fun ⟨_, hget, _⟩ => nomatch hget⟩, nofun⟩

/-- It does not matter in which order the documents of an index are listed. -/
theorem Agrees.reorder {documents : Dictionary U CustomValues} (h : index.Agrees)
    (order : documents.Perm index.documents) : Agrees ⟨documents, index.latest⟩ := by
  have hget (uri : U) : documents.get? uri = index.documents.get? uri :=
    get?_of_perm h.documents_once order
  refine ⟨⟨(order.map Prod.fst).nodup_iff.mpr h.documents_once, h.names_once,
    fun ⟨es, hes, hmem⟩ => h.owned ⟨es, (hget _).symm.trans hes, hmem⟩⟩, fun hlatest => ?_⟩
  obtain ⟨es, hes, hmem⟩ := h.declares hlatest
  exact ⟨es, (hget _).trans hes, hmem⟩

/-- Every index that calls lead to agrees with itself. -/
theorem Reached.agrees (h : Reached index) : index.Agrees := by
  induction h with
  | empty => exact agrees_empty
  | indexed _ uri text ih => exact ih.insert uri (declaredIn text)
  | removed _ uri ih => exact ih.remove uri
  | reordered _ order ih => exact ih.reorder order

/-- A name has a value exactly if a document declares it. -/
theorem Agrees.resolve_iff (h : index.Agrees) :
    (∃ value, index.resolve name = some value) ↔ ∃ uri value, index.Declares uri name value := by
  constructor
  · rintro ⟨value, hvalue⟩
    obtain ⟨⟨owner, v⟩, hget, -⟩ := Option.map_eq_some_iff.mp hvalue
    exact ⟨owner, v, h.declares hget⟩
  · rintro ⟨uri, value, hdeclares⟩
    obtain ⟨owner, hget⟩ := h.owned hdeclares
    exact ⟨owner.2, by rw [resolve, hget, Option.map_some]⟩

/-- A name has an owner exactly if some document declares it. -/
theorem Agrees.mem_keys_latest (h : index.Agrees) :
    name ∈ index.latest.keys ↔ name ∈ index.declaredNames := by
  simp only [declaredNames, List.mem_flatMap]
  constructor
  · intro hname
    obtain ⟨⟨n, owner, value⟩, hmem, rfl⟩ := List.mem_map.mp hname
    obtain ⟨entries, hget, hvalue⟩ := h.declares (get?_of_mem h.names_once hmem)
    exact ⟨(owner, entries), mem_of_get? hget, mem_keys_of_mem hvalue⟩
  · rintro ⟨⟨uri, entries⟩, hmem, hname⟩
    obtain ⟨⟨n, value⟩, hvalue, rfl⟩ := List.mem_map.mp hname
    obtain ⟨owner, hget⟩ := h.owned ⟨entries, get?_of_mem h.documents_once hmem, hvalue⟩
    exact mem_keys_of_mem (mem_of_get? hget)

/-- There are as many names with an owner as different names are declared. -/
theorem Agrees.length_latest (h : index.Agrees) :
    index.latest.length = index.declaredNames.dedup.length := by
  have hperm : index.latest.keys.Perm index.declaredNames.dedup :=
    (List.perm_ext_iff_of_nodup h.names_once (List.nodup_dedup _)).mpr fun name => by
      rw [List.mem_dedup, h.mem_keys_latest]
  simpa only [keys, List.length_map] using hperm.length_eq

/-- After any calls, whoever owns a name declares it, names that are declared are those that have a
value, and a document that goes takes no name away from another. -/
theorem reached_agrees (h : Reached index) :
    (∀ name owner value, index.latest.get? name = some (owner, value) →
      index.Declares owner name value) ∧
    (∀ uri name value, index.Declares uri name value →
      ∃ owner, index.latest.get? name = some owner) ∧
    (∀ name, (∃ value, index.resolve name = some value) ↔
      ∃ uri value, index.Declares uri name value) ∧
    index.latest.length = index.declaredNames.dedup.length ∧
    ∀ uri name owner value, index.latest.get? name = some (owner, value) → owner ≠ uri →
      (index.remove uri).resolve name = index.resolve name := by
  have hagrees := h.agrees
  refine ⟨fun _ _ _ => hagrees.declares, fun _ _ _ => hagrees.owned, fun _ => hagrees.resolve_iff,
    hagrees.length_latest, fun uri name owner value hget hne => ?_⟩
  rw [resolve, resolve, get?_latest_remove hget hne, hget]

/-- Of two documents that declare `--b` the second one owns it, and the first one may go. -/
theorem reached_agrees_of_two :
    Reached (((empty (U := Url)).indexText (.ofFile ["a"]) "x\x7b--b:1;--c:2\x7d").indexText (.ofFile ["d"])
      "x\x7b--b: 3 \x7d") ∧
    (((empty (U := Url)).indexText (.ofFile ["a"]) "x\x7b--b:1;--c:2\x7d").indexText (.ofFile ["d"])
      "x\x7b--b: 3 \x7d").latest.get? "--b" = some (.ofFile ["d"], "3") ∧
    ((((empty (U := Url)).indexText (.ofFile ["a"]) "x\x7b--b:1;--c:2\x7d").indexText (.ofFile ["d"])
      "x\x7b--b: 3 \x7d").remove (.ofFile ["a"])).resolve "--b" =
    (((empty (U := Url)).indexText (.ofFile ["a"]) "x\x7b--b:1;--c:2\x7d").indexText (.ofFile ["d"])
      "x\x7b--b: 3 \x7d").resolve "--b" := by
  have hreached := ((Reached.empty (U := Url)).indexed (.ofFile ["a"]) "x\x7b--b:1;--c:2\x7d").indexed
    (.ofFile ["d"]) "x\x7b--b: 3 \x7d"
  have hfirst : declaredIn "x\x7b--b:1;--c:2\x7d" = [("--b", "1"), ("--c", "2")] := by cbv
  have hsecond : declaredIn "x\x7b--b: 3 \x7d" = [("--b", "3")] := by cbv
  have howner : (((empty (U := Url)).indexText (.ofFile ["a"]) "x\x7b--b:1;--c:2\x7d").indexText
      (.ofFile ["d"]) "x\x7b--b: 3 \x7d").latest.get? "--b" = some (.ofFile ["d"], "3") := by
    rw [indexText, indexText, hfirst, hsecond]
    decide
  exact ⟨hreached, howner,
    (reached_agrees hreached).2.2.2.2 _ _ _ _ howner (by decide)⟩

end CssWorkbench.PropertyIndex
