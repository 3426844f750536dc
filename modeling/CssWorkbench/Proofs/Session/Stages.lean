import CssWorkbench.Proofs.Workspace.IndexConsistency
import CssWorkbench.Session.Job

/-!
# What the stages of a job do

A stage of a job changes little of a session: at most it stores a tree, brings something into the
index at one address, tells the editor of one document, or takes over other settings. For each of
these a function of the job says which stages do it and what comes of it, so that what holds along
the course of a session is seen job by job.

What a document looks like is all that a run goes by; no stage changes it, only events do.
-/

namespace CssWorkbench

open Dictionary PropertyIndex

/-- What the editor is told of a document: the version it had, unless it was closed, its text, and
its diagnostics. -/
structure Publication where
  version : Option Int
  text : String
  diagnostics : List Diagnostic

/-- A document is closed, and there is nothing to report. -/
def Publication.cleared : Publication := ⟨none, "", []⟩

/-- What a run publishes of a document that looks like this. -/
def Snapshot.publication (snap : Snapshot) (settings : Settings) : Publication :=
  ⟨some snap.version, snap.content, diagnosticsOf settings (.ofText snap.content)⟩

variable {U : Type} {uri u : U} {told more : List (Announcement U)} {p : Publication}

/-- A run is for what a document looks like if it was scheduled for that version. -/
def PendingRun.IsFor (run : PendingRun U) (uri : U) (snap : Snapshot) : Prop :=
  run.uri = uri ∧ run.version = snap.version

namespace Job

/-- The run that a job is at, with what it saw of its document. -/
def run? : Job U → Option (PendingRun U × Snapshot)
  | computing run seen | checking run seen | publishing run seen => some (run, seen)
  | _ => none

/-- The address and the text whose tree a job stores at the stage it is at, if the document still
looks like that. -/
def stores? : Job U → Option (U × Snapshot)
  | checking run seen => some (run.uri, seen)
  | answering uri seen => some (uri, seen)
  | _ => none

/-- A job stores the tree of what it saw. -/
theorem seen?_of_stores? {job : Job U} {x : U × Snapshot} (h : job.stores? = some x) :
    job.seen? = some x := by
  cases job <;> cases h <;> rfl

/-- What a job tells the editor of a document at the stage it is at. -/
def tells? : Job U → Option (U × Publication)
  | publishing run seen => some (run.uri, seen.publication run.settings)
  | clearing uri => some (uri, .cleared)
  | _ => none

/-- What a job brings into the index at the stage it is at: the address, and what the index holds
there then. -/
def writes? [Addressing U] (files : FileTree) : Job U → Option (U × Option CustomValues)
  | computing run seen => some (run.uri, some (declaredIn seen.content))
  | indexing path contents =>
    (Addressing.ofFile? path).map fun uri => (uri, some (declaredIn contents))
  | searching _ search _ _ =>
    match search.file with
    | some (path, some contents) =>
      (Addressing.ofFile? path).map fun uri => (uri, some (declaredIn contents))
    | _ => none
  | restoring uri =>
    match (Addressing.filePath? uri).bind files.at? with
    | some (.text _) | some .binary => none
    | _ => some (uri, none)
  | _ => none

end Job

namespace Session

/-- Taking over a configuration changes the settings at most. -/
theorem configure_eq (s : Session U) (around : Surroundings) :
    s.configure around = { s with settings := (s.configure around).settings } := by
  unfold configure
  split <;> rfl

/-- The runs that are scheduled for all open documents come behind those that are to come. -/
theorem scheduleAll_eq (s : Session U) :
    s.scheduleAll = { s with
      pending := s.pending ++ s.documents.map fun p => ⟨p.1, p.2.version, s.now, s.settings⟩ } := by
  have hfold (documents : List (U × Document)) (s : Session U) :
      documents.foldl (fun s p => s.schedule p.1 p.2.version 0) s = { s with
        pending := s.pending ++ documents.map fun p => ⟨p.1, p.2.version, s.now, s.settings⟩ } := by
    induction documents generalizing s with
    | nil => simp
    | cons p documents ih =>
      rw [List.foldl_cons, ih]
      simp [schedule]
  exact hfold s.documents s

end Session

variable [DecidableEq U]

/-- What an announcement says of the document at an address. -/
def Announcement.publication? (uri : U) : Announcement U → Option Publication
  | .publish u version text diagnostics =>
    if u = uri then some ⟨version, text, diagnostics⟩ else none
  | _ => none

/-- The last that some announcements say of the document at an address. -/
def lastPublication? (uri : U) (told : List (Announcement U)) : Option Publication :=
  (told.filterMap (Announcement.publication? uri)).getLast?

/-- What is said last was said behind anything else. -/
theorem lastPublication?_append (uri : U) (told more : List (Announcement U)) :
    lastPublication? uri (told ++ more) =
      (lastPublication? uri more).or (lastPublication? uri told) := by
  rw [lastPublication?, List.filterMap_append, List.getLast?_append]
  rfl

/-- An event says nothing of a document at once. -/
@[simp] theorem lastPublication?_announcements (uri : U) (event : Event U) :
    lastPublication? uri event.announcements = none := by
  cases event <;> rfl

namespace Session

variable {s : Session U} {seen snap : Snapshot} {run : PendingRun U} {d : Document} {job : Job U}
  {around : Surroundings} {event : Event U}

/-- What the index holds of the document at an address. -/
def entries? (s : Session U) (uri : U) : Option CustomValues := s.index.documents.get? uri

/-- An open document looks like its snapshot. -/
theorem snapshot?_eq_some (h : s.documents.get? uri = some d) :
    s.snapshot? uri = some d.snapshot := by
  rw [snapshot?, h, Option.map_some]

/-- Only a document that is not open looks like nothing. -/
theorem snapshot?_eq_none_iff : s.snapshot? uri = none ↔ s.documents.get? uri = none :=
  Option.map_eq_none_iff

/-! ## Stored trees -/

/-- Keeping a tree changes the document at its address at most, and that only by storing. -/
theorem get?_keep (s : Session U) (uri wanted : U) (seen : Snapshot) :
    (s.keep uri seen).documents.get? wanted = (s.documents.get? wanted).map fun d =>
      if uri = wanted then d.store seen (.ofText seen.content) else d := by
  unfold keep
  split
  · next d hd =>
    rw [putDocument, get?_put]
    split
    · next heq => rw [← heq, hd, Option.map_some]
    · rw [Option.map_id']
  · next hnone =>
    by_cases heq : uri = wanted
    · rw [← heq, hnone, Option.map_none]
    · simp only [if_neg heq, Option.map_id']

/-- A stored tree does not show. -/
@[simp] theorem snapshot_store (d : Document) (seen : Snapshot) (p : ParsedText) :
    (d.store seen p).snapshot = d.snapshot := by
  unfold Document.store
  split <;> rfl

/-- Keeping a tree does not show. -/
@[simp] theorem snapshot?_keep (s : Session U) (uri wanted : U) (seen : Snapshot) :
    (s.keep uri seen).snapshot? wanted = s.snapshot? wanted := by
  rw [snapshot?, snapshot?, get?_keep, Option.map_map]
  refine Option.map_congr fun d _ => ?_
  simp only [Function.comp_apply]
  split
  · exact snapshot_store d _ _
  · rfl

/-- Keeping a tree leaves everything but the documents. -/
theorem keep_eq (s : Session U) (uri : U) (seen : Snapshot) :
    s.keep uri seen = { s with documents := (s.keep uri seen).documents } := by
  unfold keep
  split <;> rfl

/-- A document still shows what was seen if it has the version and the number of edits. -/
theorem stillShows_iff : s.stillShows uri seen = true ↔
    ∃ snap, s.snapshot? uri = some snap ∧ snap.version = seen.version ∧
      snap.edits = seen.edits := by
  simp only [stillShows, Option.any_eq_true, Document.matchesSnapshot, Bool.and_eq_true,
    decide_eq_true_eq, snapshot?, Option.map_eq_some_iff]
  constructor
  · rintro ⟨d, hd, hlike⟩
    exact ⟨_, ⟨d, hd, rfl⟩, hlike⟩
  · rintro ⟨_, ⟨d, hd, rfl⟩, hlike⟩
    exact ⟨d, hd, hlike⟩

/-! ## Events -/

/-- An event touches neither the settings nor the index. -/
@[simp] theorem settings_hear (s : Session U) (event : Event U) :
    (s.hear event).settings = s.settings := by
  cases event <;> rfl

/-- An event leaves the index as it is. -/
@[simp] theorem index_hear (s : Session U) (event : Event U) :
    (s.hear event).index = s.index := by
  cases event <;> rfl

/-- Runs to come stay to come when an event is heard, and a new one goes by the settings in force. -/
theorem mem_pending_hear (h : run ∈ (s.hear event).pending) :
    run ∈ s.pending ∨ run.settings = s.settings := by
  cases event with
  | began | initialized | configurationChanged | closed => exact .inl h
  | opened u version text | changed u version changes =>
    rcases List.mem_append.mp h with h | h
    · exact .inl h
    · rw [List.mem_singleton.mp h]
      exact .inr rfl

/-- An event takes no run back that is to come. -/
theorem pending_subset_hear (s : Session U) (event : Event U) :
    s.pending ⊆ (s.hear event).pending := by
  cases event with
  | began | initialized | configurationChanged | closed => exact fun _ h => h
  | opened | changed => exact List.subset_append_left _ _

/-- What an event does to the open documents. -/
theorem get?_documents_hear (s : Session U) (event : Event U) (wanted : U) :
    (s.hear event).documents.get? wanted = match event with
      | .opened uri version text =>
        if uri = wanted then some (.opened text version) else s.documents.get? wanted
      | .changed uri version changes =>
        if uri = wanted then
          some (((s.documents.get? uri).getD .blank).change version changes)
        else s.documents.get? wanted
      | .closed uri => if uri = wanted then none else s.documents.get? wanted
      | .began _ | .initialized | .configurationChanged => s.documents.get? wanted := by
  cases event with
  | began | initialized | configurationChanged => rfl
  | opened | changed => exact get?_put _ _ _ _
  | closed => exact get?_erase _ _ _

/-- Changes move a document to their version. -/
@[simp] theorem version_change (d : Document) (version : Int) (changes : List TextChange) :
    (d.change version changes).version = version := by
  unfold Document.change
  simp only
  split <;> rfl

/-- Seen from one address, an event leaves a run to come for what the document there looks like
then, or the document is the same and looks as before. -/
theorem hear_cases (s : Session U) (event : Event U) (uri : U) :
    (∀ snap, (s.hear event).snapshot? uri = some snap →
        ∃ run ∈ (s.hear event).pending, run.IsFor uri snap) ∨
      (s.hear event).snapshot? uri = s.snapshot? uri ∧ event ≠ .closed uri ∧
        ∀ version text, event ≠ .opened uri version text := by
  have hget := s.get?_documents_hear event uri
  cases event with
  | began | initialized | configurationChanged => exact .inr ⟨rfl, by simp, by simp⟩
  | opened u version text | changed u version changes =>
    by_cases hu : u = uri
    · subst hu
      refine .inl fun snap hsnap =>
        ⟨⟨u, version, _, s.settings⟩, List.mem_append_right _ List.mem_cons_self, rfl, ?_⟩
      simp only [if_true] at hget
      rw [snapshot?, hget] at hsnap
      cases hsnap
      simp [Document.snapshot, Document.opened]
    · simp only [if_neg hu] at hget
      exact .inr ⟨by rw [snapshot?, snapshot?, hget], by simp,
        fun version text heq => hu (by cases heq <;> rfl)⟩
  | closed u =>
    by_cases hu : u = uri
    · simp only [if_pos hu] at hget
      exact .inl fun snap hsnap => by simp [snapshot?, hget] at hsnap
    · simp only [if_neg hu] at hget
      refine .inr ⟨by rw [snapshot?, snapshot?, hget], ?_, by simp⟩
      rintro ⟨⟩
      exact hu rfl

/-- Only its closing makes a document go. -/
theorem snapshot?_eq_none_of_hear (h : (s.hear event).snapshot? uri = none)
    (hevent : event ≠ .closed uri) : s.snapshot? uri = none := by
  rw [snapshot?_eq_none_iff] at h ⊢
  rw [get?_documents_hear] at h
  cases event with
  | began | initialized | configurationChanged => exact h
  | opened u version text | changed u version changes =>
    simp only at h
    split at h
    · cases h
    · exact h
  | closed u =>
    have hu : u ≠ uri := fun e => hevent (e ▸ rfl)
    simpa only [if_neg hu] using h

/-! ## Stages -/

variable [Addressing U]

/-- A stage stores the tree that its job is to store, or it leaves the documents. -/
theorem documents_advance_cases (s : Session U) (around : Surroundings) (job : Job U) :
    (∃ u seen, job.stores? = some (u, seen) ∧
        (s.advance around job).1.documents = (s.keep u seen).documents) ∨
      (s.advance around job).1.documents = s.documents := by
  cases job with
  | answering u seen => exact .inl ⟨u, seen, rfl, rfl⟩
  | checking run seen =>
    simp only [advance]
    split
    · exact .inl ⟨run.uri, seen, rfl, rfl⟩
    · exact .inr rfl
  | configuring initial =>
    right
    cases initial with
    | true =>
      simp only [advance]
      split <;> rw [configure_eq]
    | false =>
      simp only [advance]
      rw [scheduleAll_eq, configure_eq]
  | searching roots search indexed progress =>
    right
    simp only [advance, searchOn]
    split <;> split <;> rfl
  | restoring u =>
    right
    simp only [advance, restore]
    split <;> rfl
  | reading path =>
    right
    simp only [advance]
    split <;> rfl
  | showing | clearing | indexing | computing | publishing | finished => exact .inr rfl

/-- What a document looks like is changed by no stage. -/
@[simp] theorem snapshot?_advance (s : Session U) (around : Surroundings) (job : Job U) (uri : U) :
    (s.advance around job).1.snapshot? uri = s.snapshot? uri := by
  rcases s.documents_advance_cases around job with ⟨u, seen, -, heq⟩ | heq
  · rw [snapshot?, heq]
    exact s.snapshot?_keep u uri seen
  · rw [snapshot?, heq]
    rfl

/-- Only where a configuration is taken over, a stage changes the settings or schedules runs. -/
theorem settings_pending_advance (s : Session U) (around : Surroundings)
    (h : ∀ initial, job ≠ .configuring initial) :
    (s.advance around job).1.settings = s.settings ∧
      (s.advance around job).1.pending = s.pending := by
  cases job with
  | configuring initial => exact absurd rfl (h initial)
  | checking run seen =>
    simp only [advance]
    split
    · rw [keep_eq]
      exact ⟨rfl, rfl⟩
    · exact ⟨rfl, rfl⟩
  | answering u seen =>
    simp only [advance]
    rw [keep_eq]
    exact ⟨rfl, rfl⟩
  | searching roots search indexed progress =>
    simp only [advance, searchOn]
    split <;> split <;> exact ⟨rfl, rfl⟩
  | restoring u =>
    simp only [advance, restore]
    split <;> exact ⟨rfl, rfl⟩
  | reading path =>
    simp only [advance]
    split <;> exact ⟨rfl, rfl⟩
  | showing | clearing | indexing | computing | publishing | finished => exact ⟨rfl, rfl⟩

/-- The settings after the configuration was taken over, with the runs to come: at the start of a
session none are scheduled, and later one for every open document. -/
theorem advance_configuring (s : Session U) (around : Surroundings) (initial : Bool) :
    (s.advance around (.configuring initial)).1.settings = (s.configure around).settings ∧
      (s.advance around (.configuring initial)).1.pending = s.pending ++
        if initial then [] else
          s.documents.map fun p => ⟨p.1, p.2.version, s.now, (s.configure around).settings⟩ := by
  cases initial with
  | true =>
    simp only [advance]
    split <;> exact ⟨rfl, by rw [configure_eq]; exact (List.append_nil _).symm⟩
  | false =>
    simp only [advance]
    rw [scheduleAll_eq, configure_eq]
    exact ⟨rfl, rfl⟩

/-- No stage takes a run back that is to come. -/
theorem pending_subset_advance (s : Session U) (around : Surroundings) (job : Job U) :
    s.pending ⊆ (s.advance around job).1.pending := by
  by_cases h : ∃ initial, job = .configuring initial
  · obtain ⟨initial, rfl⟩ := h
    rw [(s.advance_configuring around initial).2]
    exact List.subset_append_left _ _
  · rw [(s.settings_pending_advance around fun initial heq => h ⟨initial, heq⟩).2]
    exact fun _ h => h

/-- What a text that is indexed by its path brings into the index. -/
theorem documents_indexAt? (index : PropertyIndex U) (path : FilePath) (contents : String)
    (uri : U) :
    ((index.indexAt? path contents).getD index).documents.get? uri =
      match (Addressing.ofFile? path).map fun u => (u, some (declaredIn contents)) with
      | some (u, entries) => if u = uri then entries else index.documents.get? uri
      | none => index.documents.get? uri := by
  unfold PropertyIndex.indexAt?
  cases Addressing.ofFile? (U := U) path with
  | none => rfl
  | some u => exact get?_documents_insert _ _ _ _

/-- A turn of a search indexes the text in hand, if there is one, and else leaves the index. -/
theorem index_turn {index index' : PropertyIndex U} {search next : Search} {skip : U → Bool}
    {files : FileTree} (h : search.turn files [] skip index = some (next, index')) :
    index' = match search.file with
      | some (path, some contents) => (index.indexAt? path contents).getD index
      | _ => index := by
  obtain ⟨folders, folder, entries, file, indexed⟩ := search
  rcases file with _ | ⟨path, _ | contents⟩
  · rcases entries with _ | ⟨⟨name, t⟩, entries⟩
    · rcases folders with _ | ⟨path, folders⟩
      · cases h
        rfl
      · simp only [Search.turn] at h
        split at h <;> cases h
        rfl
    · cases h
      rfl
  · cases h
    rfl
  · simp only [Search.turn] at h
    split at h <;> next hindex => cases h; simp only [hindex, Option.getD_some, Option.getD_none]

/-- What the index holds of a document after a stage: what the job brings in there, or what it held
before. -/
theorem entries?_advance (s : Session U) (around : Surroundings) (job : Job U) (uri : U) :
    (s.advance around job).1.entries? uri =
      match job.writes? around.files with
      | some (u, entries) => if u = uri then entries else s.entries? uri
      | none => s.entries? uri := by
  cases job with
  | computing run seen => exact get?_documents_insert _ _ _ _
  | indexing path contents => exact documents_indexAt? _ _ _ _
  | searching roots search indexed progress =>
    simp only [advance, searchOn, Job.writes?]
    split
    · next hover =>
      have hfile : search.file = none := by
        simp only [Search.isOver, Bool.and_eq_true, Option.isNone_iff_eq_none] at hover
        exact hover.2
      rw [hfile]
      split <;> rfl
    · split
      · next next index hturn =>
        simp only [entries?, index_turn hturn]
        split
        · exact documents_indexAt? _ _ _ _
        · rfl
      · next hturn =>
        -- Only a folder that cannot be listed ends a search, and then there is no file in hand.
        have hfile : search.file = none := by
          unfold Search.turn at hturn
          split at hturn <;> first | assumption | (split at hturn <;> cases hturn) | cases hturn
        rw [hfile]
  | restoring u =>
    have hremoved : (s.index.remove u).documents.get? uri =
        if u = uri then none else s.index.documents.get? uri := get?_documents_remove _ _ _
    simp only [advance, restore, Job.writes?]
    cases Addressing.filePath? u with
    | none => exact hremoved
    | some path =>
      simp only [Option.bind_some]
      cases around.files.at? path with
      | none => exact hremoved
      | some file =>
        cases file with
        | text | binary => rfl
        | special | folder => exact hremoved
  | configuring initial =>
    simp only [Job.writes?]
    cases initial with
    | true =>
      simp only [advance]
      split <;> rw [configure_eq] <;> rfl
    | false =>
      simp only [advance]
      rw [scheduleAll_eq, configure_eq]
      rfl
  | reading path =>
    simp only [advance, Job.writes?]
    split <;> rfl
  | checking run seen =>
    simp only [advance, Job.writes?]
    split
    · rw [keep_eq]
      rfl
    · rfl
  | answering u seen =>
    simp only [advance, Job.writes?]
    rw [keep_eq]
    rfl
  | showing | clearing | publishing | finished => rfl

/-- What a stage tells the editor of a document. -/
theorem lastPublication?_advance (s : Session U) (around : Surroundings) (job : Job U) (uri : U) :
    lastPublication? uri (s.advance around job).2.2 =
      match job.tells? with
      | some (u, p) => if u = uri then some p else none
      | none => none := by
  have hone (u : U) (version : Option Int) (text : String) (diagnostics : List Diagnostic) :
      lastPublication? uri [.publish u version text diagnostics] =
        if u = uri then some ⟨version, text, diagnostics⟩ else none := by
    by_cases hu : u = uri <;> simp [lastPublication?, Announcement.publication?, hu]
  cases job with
  | publishing run seen => exact hone _ _ _ _
  | clearing u => exact hone _ _ _ _
  | configuring initial =>
    cases initial with
    | true =>
      simp only [advance]
      split <;> rfl
    | false => rfl
  | showing roots =>
    simp only [advance]
    split <;> rfl
  | searching roots search indexed progress =>
    simp only [advance, searchOn]
    split
    · split
      · dsimp only
        split <;> rfl
      · rfl
    · split <;> rfl
  | reading path =>
    simp only [advance]
    split <;> rfl
  | checking run seen =>
    simp only [advance]
    split <;> rfl
  | restoring | indexing | computing | answering | finished => rfl

end Session

end CssWorkbench
