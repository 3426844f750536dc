import CssWorkbench.Proofs.Session.Steps
import CssWorkbench.Proofs.Url.FileAddresses
import CssWorkbench.Proofs.Workspace.DeclaredValues

/-!
# The index follows the open documents

Every change of a document leaves a run to come that will see the document as it is then and bring
its text into the index. But the index is written by all that is under way, and nobody looks whether
a document still has the text that is brought in: a run may be overtaken by the run for the next
version, a search of the workspace or the reading of a file by an opening; and a file whose document
is open may be closed under another address.

As long as no such text comes in after the last run for its document, the index holds of every open
document what its text declares.
-/

namespace CssWorkbench

open Dictionary PropertyIndex

variable {U : Type} [DecidableEq U] {uri : U}

/-- The index holds of the document at an address each custom property that a text declares, with
the value of its last declaration. -/
def PropertyIndex.HoldsOf (index : PropertyIndex U) (uri : U) (text : String) : Prop :=
  ∃ entries, index.documents.get? uri = some entries ∧ entries.keys.Nodup ∧
    ∀ name value, (name, value) ∈ entries ↔
      ∃ last, (parse text).1.lastDeclaration? name = some last ∧
        value = Text.trimString (last.valueText text)

/-- What a text declares is all that the index holds of a document. -/
theorem PropertyIndex.holdsOf_of_entries? {s : Session U} {text : String}
    (h : s.entries? uri = some (declaredIn text)) : s.index.HoldsOf uri text :=
  ⟨_, h, nodup_keys_declaredIn text, fun _ _ => mem_declaredIn⟩

/-- A run that is about to index what it saw. -/
def Job.IsComputing (job : Job U) : Prop := ∃ run seen, job = .computing run seen

namespace BusySession

variable [Addressing U] {b : BusySession U} {step : BusyStep U} {steps : List (BusyStep U)}

/-- A run that will index the text of a document is to come, or has seen the document as it is and
is about to index it. -/
def IndexesSoon (b : BusySession U) (uri : U) (snap : Snapshot) : Prop :=
  b.Awaits (fun _ => Job.IsComputing) uri snap

/-- A step indexes something else than was seen of an open document as it is, and no run that will
index its text is left. -/
def IndexesLate (b : BusySession U) (uri : U) : BusyStep U → Prop
  | .advance place around => ∃ j entries snap, b.jobs[place]? = some j ∧
      j.job.writes? around.files = some (uri, entries) ∧ b.session.snapshot? uri = some snap ∧
      ¬ (j.job.IsComputing ∧ j.Saw uri snap) ∧
      ¬ (b.take (.advance place around)).IndexesSoon uri snap
  | _ => False

/-- No step indexes anything for a document after the last run for it. -/
def NeverIndexesLate (uri : U) (b : BusySession U) (steps : List (BusyStep U)) : Prop :=
  Throughout (fun b step => ¬ b.IndexesLate uri step) b steps

/-- A run that will index the text of an open document is left, or the index holds what it
declares. -/
def Indexes (b : BusySession U) (uri : U) : Prop :=
  ∀ snap, b.session.snapshot? uri = some snap →
    b.IndexesSoon uri snap ∨ b.session.entries? uri = some (declaredIn snap.content)

/-- Only a stage makes that a document will not be indexed any more. -/
theorem indexesSoon_take {snap : Snapshot} (hstep : ∀ place around, step ≠ .advance place around)
    (hsnap : (b.take step).session.snapshot? uri = some snap) :
    (b.take step).IndexesSoon uri snap ∨
      b.session.snapshot? uri = some snap ∧ ¬ b.IndexesSoon uri snap :=
  awaits_take (fun run seen => ⟨run, seen, rfl⟩) hstep hsnap

/-- Steps that take no job further leave the index as it is. -/
theorem entries?_take (hstep : ∀ place around, step ≠ .advance place around) :
    (b.take step).session.entries? uri = b.session.entries? uri := by
  cases step with
  | event event =>
    rw [take_event, Session.entries?, Session.index_hear]
    rfl
  | pass milliseconds => rfl
  | wake place =>
    rcases b.take_wake_cases place with heq | ⟨run, jobs, -, heq, -⟩
    all_goals rw [heq]
    rfl
  | look u =>
    rcases b.take_look_cases u with heq | ⟨seen, -, heq⟩
    all_goals rw [heq]
    rfl
  | advance place around => exact absurd rfl (hstep place around)

/-- A stage that brings something in for an open document brings in what its text declares, or a run
that will do so is left. -/
theorem Indexes.stage {j : Underway U} {place : Nat} {around : Surroundings} (h : b.Indexes uri)
    (htracks : b.Tracks) (hj : b.jobs[place]? = some j)
    (hsoon : ∀ entries snap, j.job.writes? around.files = some (uri, entries) →
      b.session.snapshot? uri = some snap → ¬ (j.job.IsComputing ∧ j.Saw uri snap) →
        (b.stage place around j).IndexesSoon uri snap) :
    (b.stage place around j).Indexes uri := by
  intro snap hsnap
  have hentries := b.session.entries?_advance around j.job uri
  replace hsnap : b.session.snapshot? uri = some snap :=
    (b.session.snapshot?_advance around j.job uri).symm.trans hsnap
  by_cases hsaw : j.job.IsComputing ∧ j.Saw uri snap
  · -- The run that is to index the document does so now, and it has seen the text.
    right
    obtain ⟨⟨run, seen, hjob⟩, hkept, seen', hseen, hedits⟩ := hsaw
    have htext := htracks.content_eq (List.mem_of_getElem? hj) hsnap hkept hseen hedits
    rw [hjob] at hseen
    cases hseen
    rw [hjob] at hentries
    rw [← htext]
    simpa [BusySession.stage, hjob, Job.writes?] using hentries
  · by_cases hwrites : ∃ entries, j.job.writes? around.files = some (uri, entries)
    · obtain ⟨entries, hwrites⟩ := hwrites
      exact .inl (hsoon entries snap hwrites hsnap hsaw)
    · have hkept : (b.stage place around j).session.entries? uri = b.session.entries? uri := by
        simp only [BusySession.stage, hentries]
        split
        · next u entries heq =>
          exact if_neg fun hu : u = uri => hwrites ⟨entries, hu ▸ heq⟩
        · rfl
      rw [hkept]
      exact (h snap hsnap).imp_left fun hsoon => (hsoon.stage hj around).resolve_right hsaw

/-- A step that does not come late keeps the index up with the document. -/
theorem Indexes.take (h : b.Indexes uri) (htracks : b.Tracks) (hlate : ¬ b.IndexesLate uri step) :
    (b.take step).Indexes uri := by
  cases step with
  | advance place around =>
    rcases b.take_advance_cases place around with heq | ⟨j, hj, heq⟩
    · rwa [heq]
    · rw [heq]
      refine h.stage htracks hj fun entries snap hwrites hsnap hsaw => ?_
      by_contra hsoon
      exact hlate ⟨j, entries, snap, hj, hwrites, hsnap, hsaw, heq ▸ hsoon⟩
  | event | pass | wake | look =>
    intro snap hsnap
    rw [entries?_take (by nofun)]
    rcases indexesSoon_take (by nofun) hsnap with hsoon | ⟨hbefore, hnone⟩
    · exact .inl hsoon
    · exact .inr ((h snap hbefore).resolve_left hnone)

/-- So does a whole course. -/
theorem Indexes.takeAll (h : b.Indexes uri) (htracks : b.Tracks)
    (hlate : NeverIndexesLate uri b steps) : (b.takeAll steps).Indexes uri :=
  have hkept := Throughout.keeps (fun b => b.Tracks ∧ b.Indexes uri) hlate ⟨htracks, h⟩
    fun h hnot => ⟨h.1.take _, h.2.take h.1 hnot⟩
  hkept.2

omit [DecidableEq U] [Addressing U] in
/-- Nothing will index a document for which no run is left. -/
theorem NoRunFor.not_indexesSoon {snap : Snapshot} (h : b.NoRunFor uri) :
    ¬ b.IndexesSoon uri snap := by
  rintro (⟨run, hrun, hfor⟩ | ⟨j, hj, ⟨run, seen, hjob⟩, -, seen', hseen, -⟩)
  · exact h.1 run hrun hfor.1
  · rw [hjob] at hseen
    cases hseen
    exact h.2 j hj run seen (hjob ▸ rfl) rfl

omit [Addressing U] in
/-- At the start there is no document to be indexed. -/
theorem indexes_start (uri : U) : (start : BusySession U).Indexes uri := fun _ h => by cases h

omit [Addressing U] in
/-- When no run for an open document is left, the index holds what it declares. -/
theorem Indexes.holdsOf (h : b.Indexes uri) (hidle : b.NoRunFor uri) {d : Document}
    (hopen : b.session.documents.get? uri = some d) : b.session.index.HoldsOf uri d.content :=
  holdsOf_of_entries?
    ((h _ (Session.snapshot?_eq_some hopen)).resolve_left hidle.not_indexesSoon)

end BusySession

end CssWorkbench
