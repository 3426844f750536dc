import CssWorkbench.Proofs.Session.IndexedDocuments
import CssWorkbench.Proofs.Session.OverlappingReadings
import CssWorkbench.Proofs.Session.PublishedDiagnostics

/-!
# Courses in which nothing overlaps

In an undisturbed course one job is worked off after the other, so that each finds the documents as
it saw them. Then nothing is stored, published or indexed for a document that it is not of, and what
holds along other courses under a condition holds without one: only a file that is closed under an
address not made from its path may still be indexed for a document that is open.
-/

namespace CssWorkbench

variable {U : Type} [DecidableEq U] [Addressing U] {s s' : Session U} {job : Job U}
  {b : BusySession U} {step : BusyStep U} {steps : List (BusyStep U)} {uri : U} {closed : U → Prop}

/-! ## Jobs that find documents as they saw them -/

/-- A turn of a search takes no stylesheet in hand that it is to skip. -/
theorem Search.spares_turn {search next : Search} {files : FileTree} {here : List String}
    {skip : U → Bool} {index index' : PropertyIndex U}
    (h : ∀ f ∈ search.file, (Addressing.ofFile? f.1).any skip = false)
    (hturn : search.turn files here skip index = some (next, index')) :
    ∀ f ∈ next.file, (Addressing.ofFile? f.1).any skip = false := by
  obtain ⟨folders, folder, entries, file, indexed⟩ := search
  intro f hf
  rcases file with _ | ⟨path, _ | contents⟩
  · rcases entries with _ | ⟨⟨name, t⟩, entries⟩
    · rcases folders with _ | ⟨path, folders⟩
      · cases hturn
        cases hf
      · simp only [turn] at hturn
        split at hturn <;> cases hturn
        cases hf
    · cases hturn
      cases t with
      | folder =>
        simp only [look] at hf
        split at hf <;> cases hf
      | special => cases hf
      | text | binary =>
        simp only [look] at hf
        split at hf
        · next htaken =>
          cases hf
          simpa using (Bool.and_eq_true_iff.mp htaken).2
        · cases hf
  · cases hturn
    obtain ⟨contents, -, rfl⟩ := Option.map_eq_some_iff.mp hf
    exact h (path, none) rfl
  · simp only [turn] at hturn
    split at hturn <;> cases hturn <;> cases hf

omit [Addressing U] in
/-- Whether a document is open shows in what it looks like. -/
theorem Session.has_documents (s : Session U) (uri : U) :
    s.documents.has uri = (s.snapshot? uri).isSome := by
  simp [Dictionary.has, snapshot?]

/-- A job has in hand no file of an open document: a search passed over these, and a document that
falls back to its file was closed, at one of some addresses, and is not open. -/
def Job.SparesOpen (closed : U → Prop) (s : Session U) : Job U → Prop
  | .searching _ search _ _ =>
    ∀ f ∈ search.file, (Addressing.ofFile? f.1).any s.documents.has = false
  | .clearing uri | .restoring uri => closed uri ∧ s.snapshot? uri = none
  | .reading path | .indexing path _ =>
    ∃ uri, closed uri ∧ s.snapshot? uri = none ∧ Addressing.filePath? uri = some path
  | _ => True

/-- A job finds the documents as it saw them, and has no file of them in hand. -/
structure Underway.Finds (closed : U → Prop) (s : Session U) (j : Underway U) : Prop where
  seen : ∀ uri seen, j.job.seen? = some (uri, seen) →
    j.outlived = false ∧ s.snapshot? uri = some seen
  spares : j.job.SparesOpen closed s

/-- It has none in hand as long as the same documents are open. -/
theorem Job.SparesOpen.of_same (h : job.SparesOpen closed s)
    (hsame : ∀ uri, s'.snapshot? uri = s.snapshot? uri) : job.SparesOpen closed s' := by
  have hhas : s'.documents.has = s.documents.has := by
    funext uri
    rw [Session.has_documents, Session.has_documents, hsame]
  cases job with
  | searching => simpa only [SparesOpen, hhas] using h
  | clearing | restoring | reading | indexing => simpa only [SparesOpen, hsame] using h
  | configuring | showing | computing | checking | publishing | answering | finished => trivial

/-- It takes none in hand. -/
theorem Job.SparesOpen.advance (h : job.SparesOpen closed s) (around : Surroundings) :
    (s.advance around job).2.1.SparesOpen closed s := by
  cases job with
  | configuring initial =>
    cases initial with
    | true =>
      simp only [Session.advance]
      split <;> trivial
    | false => trivial
  | showing roots => exact fun f hf => by cases hf
  | searching roots search indexed progress =>
    simp only [Session.advance, Session.searchOn]
    split
    · split
      · trivial
      · exact fun f hf => by cases hf
    · split
      · next hturn => exact Search.spares_turn h hturn
      · exact fun f hf => by cases hf
  | clearing u => exact h
  | restoring u =>
    have hreads {path : FilePath} {file : FileTree}
        (hfound : ((Addressing.filePath? u).bind fun path =>
          (around.files.at? path).map (path, ·)) = some (path, file)) :
        (Job.reading path).SparesOpen closed s := by
      obtain ⟨path', hpath, hfile⟩ := Option.bind_eq_some_iff.mp hfound
      obtain ⟨file', -, heq⟩ := Option.map_eq_some_iff.mp hfile
      cases heq
      exact ⟨u, h.1, h.2, hpath⟩
    simp only [Session.advance, Session.restore]
    split
    · next hfound => exact hreads hfound
    · next hfound => exact hreads hfound
    all_goals trivial
  | reading path =>
    simp only [Session.advance]
    split
    · exact h
    · trivial
  | checking run seen =>
    simp only [Session.advance]
    split <;> trivial
  | indexing | computing | publishing | answering | finished => trivial

namespace Underway

variable {j : Underway U}

/-- A job that is through finds them so. -/
theorem finds_of_finished (h : j.job = .finished) : j.Finds closed s := by
  obtain ⟨job, outlived⟩ := j
  cases h
  exact ⟨fun uri seen hseen => (by cases hseen), trivial⟩

/-- A job finds them so as long as they look the same. -/
theorem Finds.of_same (h : j.Finds closed s) (hsame : ∀ uri, s'.snapshot? uri = s.snapshot? uri) :
    j.Finds closed s' :=
  ⟨fun uri seen hseen => by rw [hsame]; exact h.seen uri seen hseen, h.spares.of_same hsame⟩

/-- It finds them so at its next stage. -/
theorem Finds.advance (h : j.Finds closed s) (around : Surroundings) :
    ({ j with job := (s.advance around j.job).2.1 } : Underway U).Finds closed
      (s.advance around j.job).1 := by
  refine of_same ⟨fun uri seen hseen => ?_, h.spares.advance around⟩
    fun uri => s.snapshot?_advance around j.job uri
  rcases s.seen?_advance around j.job with hnone | hsame
  · cases hnone.symm.trans hseen
  · exact h.seen uri seen (hsame.symm.trans hseen)

/-- What it brings in for an open document it saw of it as it is, if documents are closed under
canonical addresses. -/
theorem Finds.saw_of_writes? (h : j.Finds Addressing.IsCanonical s) {files : FileTree}
    {entries : Option CustomValues} (hwrites : j.job.writes? files = some (uri, entries))
    {snap : Snapshot} (hsnap : s.snapshot? uri = some snap) :
    j.job.IsComputing ∧ j.Saw uri snap := by
  obtain ⟨hseen, hspares⟩ := h
  obtain ⟨job, outlived⟩ := j
  cases job with
  | computing run seen =>
    cases hwrites
    obtain ⟨hkept, hsame⟩ := hseen run.uri seen rfl
    cases hsnap.symm.trans hsame
    exact ⟨⟨run, snap, rfl⟩, hkept, snap, rfl, rfl⟩
  | indexing path contents =>
    obtain ⟨u, huri, heq⟩ := Option.map_eq_some_iff.mp hwrites
    cases heq
    obtain ⟨other, hcanonical, hnone, hpath⟩ := hspares
    cases huri.symm.trans (hcanonical path hpath)
    cases hsnap.symm.trans hnone
  | searching roots search indexed progress =>
    simp only [Job.writes?] at hwrites
    split at hwrites
    · next path contents hfile =>
      obtain ⟨u, huri, heq⟩ := Option.map_eq_some_iff.mp hwrites
      cases heq
      have hskipped := hspares _ hfile
      rw [huri, Option.any_some, Session.has_documents, hsnap] at hskipped
      cases hskipped
    · cases hwrites
  | restoring u =>
    simp only [Job.writes?] at hwrites
    split at hwrites <;> cases hwrites
    cases hsnap.symm.trans hspares.2
  | configuring | showing | clearing | reading | checking | publishing | answering | finished =>
    cases hwrites

end Underway

/-! ## Undisturbed courses -/

namespace BusySession

/-- Documents are closed at some addresses only. -/
def ClosesOnly (closed : U → Prop) (steps : List (BusyStep U)) : Prop :=
  ∀ uri, .event (.closed uri) ∈ steps → closed uri

/-- All jobs find the documents as they saw them. -/
def FindsAll (closed : U → Prop) (b : BusySession U) : Prop :=
  ∀ j ∈ b.jobs, j.Finds closed b.session

/-- A stage leaves it so. -/
theorem FindsAll.stage (h : b.FindsAll closed) {j : Underway U} {place : Nat}
    (hj : b.jobs[place]? = some j) (around : Surroundings) :
    (b.stage place around j).FindsAll closed := by
  intro k hk
  rcases List.mem_or_eq_of_mem_set hk with hk | rfl
  · exact (h k hk).of_same fun uri => b.session.snapshot?_advance around j.job uri
  · exact (h j (List.mem_of_getElem? hj)).advance around

/-- What comes undisturbed leaves it so. -/
theorem FindsAll.take (h : b.FindsAll closed)
    (hstep : b.IsIdle ∨ ∃ place around, step = .advance place around)
    (hclosed : ∀ uri, step = .event (.closed uri) → closed uri) :
    (b.take step).FindsAll closed := by
  cases step with
  | advance place around =>
    rcases b.take_advance_cases place around with heq | ⟨j, hj, heq⟩ <;> rw [heq]
    · exact h
    · exact h.stage hj around
  | event event =>
    have hidle : b.IsIdle := hstep.resolve_right fun ⟨_, _, heq⟩ => by cases heq
    intro j hj
    rw [take_event] at hj ⊢
    rcases List.mem_append.mp hj with hj | hj
    · obtain ⟨k, hk, rfl⟩ := List.mem_map.mp hj
      exact Underway.finds_of_finished ((k.job_after event).trans (hidle k hk))
    · obtain ⟨job, hjob, rfl⟩ := List.mem_map.mp hj
      cases event with
      | closed uri =>
        cases List.mem_singleton.mp hjob
        refine ⟨fun uri seen hseen => (by cases hseen), hclosed uri rfl,
          Session.snapshot?_eq_none_iff.mpr ?_⟩
        rw [Session.get?_documents_hear]
        exact if_pos rfl
      | initialized | configurationChanged =>
        cases List.mem_singleton.mp hjob
        exact ⟨fun uri seen hseen => (by cases hseen), trivial⟩
      | began | opened | changed => cases hjob
  | pass milliseconds => exact fun j hj => (h j hj).of_same fun _ => rfl
  | wake place =>
    rcases b.take_wake_cases place with heq | ⟨run, jobs, -, heq, hjobs⟩
    · rwa [heq]
    · intro j hj
      rw [heq] at hj ⊢
      rcases List.mem_append.mp hj with hj | hj
      · exact (h j hj).of_same fun _ => rfl
      · rcases hjobs with ⟨rfl, -⟩ | ⟨seen, rfl, hseen, -⟩
        · cases hj
        · cases List.mem_singleton.mp hj
          refine ⟨fun uri snap hsnap => ?_, trivial⟩
          cases hsnap
          exact ⟨rfl, hseen⟩
  | look uri =>
    rcases b.take_look_cases uri with heq | ⟨seen, hseen, heq⟩
    · rwa [heq]
    · intro j hj
      rw [heq] at hj ⊢
      rcases List.mem_append.mp hj with hj | hj
      · exact h j hj
      · cases List.mem_singleton.mp hj
        refine ⟨fun u snap hsnap => ?_, trivial⟩
        cases hsnap
        exact ⟨rfl, hseen⟩

/-- So all jobs find the documents as they saw them throughout an undisturbed course. -/
theorem Undisturbed.throughout {holds : BusySession U → BusyStep U → Prop}
    (h : b.Undisturbed steps) (hfinds : b.FindsAll closed) (hclosed : ClosesOnly closed steps)
    (hholds : ∀ {b : BusySession U} {step : BusyStep U}, b.FindsAll closed → holds b step) :
    Throughout holds b steps := by
  induction steps generalizing b with
  | nil => trivial
  | cons step steps ih =>
    have hstep := hfinds.take h.1 fun uri heq => hclosed uri (heq ▸ List.mem_cons_self)
    exact ⟨hholds hfinds, ih h.2 hstep fun uri hu => hclosed uri (List.mem_cons_of_mem _ hu)⟩

/-- At the start there are no jobs. -/
theorem findsAll_start : (start : BusySession U).FindsAll closed :=
  fun _ hj => absurd hj List.not_mem_nil

/-- Then nothing is indexed late, if documents are closed under canonical addresses. -/
theorem FindsAll.not_indexesLate (h : b.FindsAll Addressing.IsCanonical) :
    ¬ b.IndexesLate uri step := by
  cases step with
  | advance place around =>
    rintro ⟨j, entries, snap, hj, hwrites, hsnap, hsaw, -⟩
    exact hsaw ((h j (List.mem_of_getElem? hj)).saw_of_writes? hwrites hsnap)
  | event | pass | wake | look => exact id

/-- No tree is stored in a document that it was not read for. -/
theorem FindsAll.not_mixesUp (h : b.FindsAll closed) : ¬ b.MixesUp step := by
  cases step with
  | advance place around =>
    rintro ⟨j, uri, seen, d, hj, hstores, houtlived, -, -⟩
    have hkept := ((h j (List.mem_of_getElem? hj)).seen uri seen (Job.seen?_of_stores? hstores)).1
    cases hkept.symm.trans houtlived
  | event | pass | wake | look => exact id

/-- Nothing is told of a document that is no longer so. -/
theorem FindsAll.not_tellsLate (h : b.FindsAll closed) : ¬ b.TellsLate uri step := by
  cases step with
  | advance place around =>
    rintro ⟨⟨job, outlived⟩, p, hj, htells, hnot, -⟩
    obtain ⟨hseen, hspares⟩ := h _ (List.mem_of_getElem? hj)
    refine hnot ?_
    cases job with
    | publishing run seen =>
      cases htells
      obtain ⟨hkept, hsame⟩ := hseen run.uri seen rfl
      rw [TellsTruly, hsame]
      exact ⟨⟨run, seen, rfl, rfl⟩, hkept, seen, rfl, rfl⟩
    | clearing u =>
      cases htells
      rw [TellsTruly, hspares.2]
    | _ => cases htells
  | event | pass | wake | look => exact id

/-- In an undisturbed course the index follows the open documents, if documents are closed under
canonical addresses. -/
theorem Undisturbed.documents_indexed (h : start.Undisturbed steps)
    (hclosed : ClosesOnly Addressing.IsCanonical steps) (hidle : (start.takeAll steps).NoRunFor uri)
    {d : Document} (hopen : (start.takeAll steps).session.documents.get? uri = some d) :
    (start.takeAll steps).session.index.HoldsOf uri d.content :=
  have hlate : NeverIndexesLate uri start steps :=
    h.throughout findsAll_start hclosed FindsAll.not_indexesLate
  ((indexes_start uri).takeAll tracks_start hlate).holdsOf hidle hopen

/-- Stored trees are those of their texts. -/
theorem Undisturbed.faithful (h : start.Undisturbed steps) :
    (start.takeAll steps).session.Faithful :=
  have hfinds : FindsAll (fun _ => True) (start : BusySession U) := findsAll_start
  have hplaced : NeverMixesUp start steps :=
    h.throughout hfinds (fun _ _ => trivial) FindsAll.not_mixesUp
  faithful_takeAll tracks_start Session.faithful_start hplaced

/-- Of each document the editor was told what is so, or will be. -/
theorem Undisturbed.told (h : start.Undisturbed steps) (uri : U) :
    Told (True ∧ NeverOutdates uri start steps) (start.takeAll steps) uri :=
  have hfinds : FindsAll (fun _ => True) (start : BusySession U) := findsAll_start
  have hlate : NeverTellsLate uri start steps :=
    h.throughout hfinds (fun _ _ => trivial) FindsAll.not_tellsLate
  (told_start uri).takeAll hlate

omit [DecidableEq U] [Addressing U] in
/-- Where all is at rest no run is left. -/
theorem AtRest.noRunFor (h : b.AtRest) (uri : U) : b.NoRunFor uri := by
  refine ⟨fun run hrun => ?_, fun j hj run seen hrun => ?_⟩
  · rw [h.1] at hrun
    cases hrun
  · rw [h.2 j hj] at hrun
    cases hrun

end BusySession

end CssWorkbench
