import CssWorkbench.Proofs.Session.Steps
import CssWorkbench.Url.File

/-!
# Readings that overlap with events

The tree of a text is computed apart from its document: a run or a request looks at the document, and
when the tree is there, it is stored if the document has the version and the number of edits that
were seen. In the meantime the document may be changed, closed, and opened anew.

As long as a document stays open, no two of its texts come with the same number of edits. A document
that is opened anew counts its edits from zero again, and may take a tree for its own that was read
off the text before. As long as that does not happen, a stored tree is the tree of the text.
-/

namespace CssWorkbench

open Dictionary

variable {U : Type} [DecidableEq U] {uri : U} {d : Document} {snap : Snapshot}

/-- The stored trees are those of the texts. -/
def Session.Faithful (s : Session U) : Prop :=
  ∀ uri d, s.documents.get? uri = some d → ∀ p, d.parsed = some p → p = .ofText d.content

namespace Session

variable {s : Session U}

/-- A session has no documents at its start. -/
theorem faithful_start : (start : Session U).Faithful := fun _ _ h => by cases h

/-- A tree is stored in good faith if a document that looks like the snapshot has its text. -/
theorem Faithful.keep (h : s.Faithful) (hmatch : ∀ d, s.documents.get? uri = some d →
    d.matchesSnapshot snap = true → snap.content = d.content) : (s.keep uri snap).Faithful := by
  intro u d hd p hp
  rw [get?_keep] at hd
  obtain ⟨d₀, hd₀, rfl⟩ := Option.map_eq_some_iff.mp hd
  by_cases hu : uri = u
  · subst hu
    simp only [if_true] at hp ⊢
    rcases d₀.store_cases snap (.ofText snap.content) with ⟨hlike, heq⟩ | ⟨-, heq⟩ <;>
      rw [heq] at hp ⊢
    · rw [← Option.some.inj hp, hmatch d₀ hd₀ hlike]
    · exact h uri d₀ hd₀ p hp
  · simp only [if_neg hu] at hp ⊢
    exact h u d₀ hd₀ p hp

/-- Then a document has no tree, or that of its text. -/
theorem Faithful.parsed_cases (h : s.Faithful) (hd : s.documents.get? uri = some d) :
    d.parsed = none ∨ d.parsed = some (.ofText d.content) := by
  cases hparsed : d.parsed with
  | none => exact .inl rfl
  | some p => exact .inr (congrArg some (h uri d hd p hparsed))

/-- Whatever else than the documents changes, the stored trees stay good. -/
theorem Faithful.of_documents_eq {t : Session U} (h : s.Faithful)
    (heq : t.documents = s.documents) : t.Faithful := by
  rw [Session.Faithful, heq]
  exact h

/-- An event stores no tree, and one that settles another text drops the stored one. -/
theorem Faithful.hear (h : s.Faithful)
    (hsettled : ∀ uri d, s.documents.get? uri = some d → d.Settled) (event : Event U) :
    (s.hear event).Faithful := by
  intro uri d hd p hp
  rw [get?_documents_hear] at hd
  cases event with
  | began | initialized | configurationChanged => exact h uri d hd p hp
  | opened u version text =>
    simp only at hd
    split at hd
    · cases hd
      cases hp
    · exact h uri d hd p hp
  | changed u version changes =>
    simp only at hd
    split at hd
    · cases hd
      have hbefore : ((s.documents.get? u).getD .blank).Settled ∧
          ∀ p, ((s.documents.get? u).getD .blank).parsed = some p →
            p = .ofText ((s.documents.get? u).getD .blank).content := by
        cases hget : s.documents.get? u with
        | none => exact ⟨Document.settled_blank, fun p hblank => by cases hblank⟩
        | some d => exact ⟨hsettled u d hget, h u d hget⟩
      rcases hbefore.1.change_cases version changes with heq | ⟨text, heq⟩
      · rw [heq] at hp ⊢
        exact hbefore.2 p hp
      · rw [heq] at hp
        cases hp
    · exact h uri d hd p hp
  | closed u =>
    simp only at hd
    split at hd
    · cases hd
    · exact h uri d hd p hp

end Session

namespace BusySession

variable [Addressing U] {b : BusySession U} {step : BusyStep U} {steps : List (BusyStep U)}
  {place : Nat} {around : Surroundings}

/-- A step stores a tree in a document that came in the place of the one it was read for. -/
def MixesUp (b : BusySession U) : BusyStep U → Prop
  | .advance place _ => ∃ j uri seen d, b.jobs[place]? = some j ∧ j.job.stores? = some (uri, seen) ∧
      j.outlived = true ∧ b.session.documents.get? uri = some d ∧ d.matchesSnapshot seen = true
  | _ => False

/-- No step stores a tree in a document that it was not read for. -/
def NeverMixesUp (b : BusySession U) (steps : List (BusyStep U)) : Prop :=
  Throughout (fun b step => ¬ b.MixesUp step) b steps

/-- A job that was not outlived finds its text where it finds the version and the number of edits
that it saw. -/
theorem faithful_stage {j : Underway U} (htracks : b.Tracks) (h : b.session.Faithful)
    (hj : b.jobs[place]? = some j) (hplaced : ¬ b.MixesUp (.advance place around)) :
    (b.stage place around j).session.Faithful := by
  rcases b.session.documents_advance_cases around j.job with ⟨uri, seen, hstores, heq⟩ | heq
  · refine Session.Faithful.of_documents_eq (h.keep fun d hd hlike => ?_) heq
    cases hkept : j.outlived with
    | true => exact absurd ⟨j, uri, seen, d, hj, hstores, hkept, hd, hlike⟩ hplaced
    | false =>
      obtain ⟨d', hd', hfollows⟩ := htracks.seen j (List.mem_of_getElem? hj) hkept uri seen
        (Job.seen?_of_stores? hstores)
      cases hd.symm.trans hd'
      exact hfollows.content_eq hlike
  · exact h.of_documents_eq heq

/-- A step that mixes up no documents leaves the stored trees good. -/
theorem faithful_take (htracks : b.Tracks) (h : b.session.Faithful) (hplaced : ¬ b.MixesUp step) :
    (b.take step).session.Faithful := by
  cases step with
  | event event =>
    rw [take_event]
    exact h.hear htracks.settled event
  | pass milliseconds => exact h
  | wake place =>
    rcases b.take_wake_cases place with heq | ⟨run, jobs, -, heq, -⟩ <;> rw [heq] <;> exact h
  | look uri =>
    rcases b.take_look_cases uri with heq | ⟨seen, -, heq⟩ <;> rw [heq] <;> exact h
  | advance place around =>
    rcases b.take_advance_cases place around with heq | ⟨j, hj, heq⟩ <;> rw [heq]
    · exact h
    · exact faithful_stage htracks h hj hplaced

/-- So do all steps of a course. -/
theorem faithful_takeAll (htracks : b.Tracks) (h : b.session.Faithful)
    (hplaced : NeverMixesUp b steps) : (b.takeAll steps).session.Faithful :=
  have hkept := Throughout.keeps (fun b => b.Tracks ∧ b.session.Faithful) hplaced
    ⟨htracks, h⟩ fun h hnot => ⟨h.1.take _, faithful_take h.1 h.2 hnot⟩
  hkept.2

/-- However events, runs and requests overlap, a tree that is stored with an open document is that of
its text, if no tree was stored in a document that it was not read for. -/
theorem stored_trees_fresh (hplaced : NeverMixesUp start steps) (uri : U) (d : Document)
    (hopen : (start.takeAll steps).session.documents.get? uri = some d) :
    d.parsed = none ∨ d.parsed = some (.ofText d.content) :=
  have hfaithful := faithful_takeAll tracks_start Session.faithful_start hplaced
  hfaithful.parsed_cases hopen

/-- While the text of a document is being read, the document is closed and opened anew under some
version with another text. The reading of that one ends first. -/
def reopenedAs (version : Int) : List (BusyStep Url) :=
  [.event (.opened (.ofFile ["a.css"]) 1 "a\x7b\x7d"), .look (.ofFile ["a.css"]),
    .event (.closed (.ofFile ["a.css"])),
    .event (.opened (.ofFile ["a.css"]) version "b\x7b\x7d"), .look (.ofFile ["a.css"]),
    .advance 2 default, .advance 0 default]

/-- Under another version the tree of the old text is not stored. -/
theorem stored_trees_fresh_of_other_version :
    NeverMixesUp start (reopenedAs 2) ∧
      ∃ d, (start.takeAll (reopenedAs 2)).session.documents.get? (.ofFile ["a.css"]) = some d ∧
        d.content = "b\x7b\x7d" ∧ d.parsed = some (.ofText d.content) := by
  have hplaced : NeverMixesUp start (reopenedAs 2) := by
    simp [reopenedAs, NeverMixesUp, Throughout, MixesUp, take, start, Session.start, Session.hear,
      hear, begin, Event.job?, Session.schedule, Session.snapshot?, Session.advance, Job.stores?,
      Session.keep, Session.putDocument, Underway.after, get?_put, get?_erase, Job.seen?,
      Document.opened, Document.store, Document.matchesSnapshot, Document.snapshot]
  obtain ⟨p, hopen⟩ : ∃ p,
      (start.takeAll (reopenedAs 2)).session.documents.get? (.ofFile ["a.css"]) =
        some ⟨"b\x7b\x7d", 2, some p, 0, some "b\x7b\x7d"⟩ := by
    simp [reopenedAs, takeAll, take, start, Session.start, Session.hear, hear, begin,
      Event.job?, Session.schedule, Session.snapshot?, Session.advance,
      Session.keep, Session.putDocument, Underway.after, get?_put,
      Document.opened, Document.store, Document.matchesSnapshot, Document.snapshot]
  have hfresh := stored_trees_fresh hplaced (.ofFile ["a.css"]) _ hopen
  exact ⟨hplaced, _, hopen, rfl, hfresh.resolve_left (Option.some_ne_none p)⟩

/-- Under the same version it takes the place of the tree of the new text. -/
theorem stored_trees_stale_of_same_version :
    ¬∀ (steps : List (BusyStep Url)) uri d,
      (start.takeAll steps).session.documents.get? uri = some d →
        d.parsed = none ∨ d.parsed = some (.ofText d.content) := by
  intro hall
  have hopen : (start.takeAll (reopenedAs 1)).session.documents.get? (.ofFile ["a.css"]) =
      some ⟨"b\x7b\x7d", 1, some (.ofText "a\x7b\x7d"), 0, some "b\x7b\x7d"⟩ := by
    simp [reopenedAs, takeAll, take, start, Session.start, Session.hear, hear, begin,
      Event.job?, Session.schedule, Session.snapshot?, Session.advance,
      Session.keep, Session.putDocument, Underway.after, get?_put,
      Document.opened, Document.store, Document.matchesSnapshot, Document.snapshot]
  rcases hall _ _ _ hopen with hnone | hsome
  · exact Option.some_ne_none _ hnone
  · have htext := congrArg (Option.map ParsedText.text) hsome
    simp at htext

end BusySession

end CssWorkbench
