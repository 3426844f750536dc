import CssWorkbench.Proofs.Session.Steps
import CssWorkbench.Proofs.Url.FileAddresses
import CssWorkbench.Proofs.Workspace.DeclaredValues

/-!
# The index after a document was closed

A document that is closed falls back to the file at its address: the index holds of it what the text
on the disk declares, or nothing if there is no such text. Three things stand in the way. A file that
is no text leaves in the index what the document declared when it was open. A text is indexed by the
address made from its path, so that what a document declared under another address stays. And
whatever else is under way may index the document once more.
-/

namespace CssWorkbench

open Dictionary PropertyIndex

variable {U : Type} [DecidableEq U] [Addressing U] {uri : U} {files : FileTree}

/-- The text of the file that an address leads to, if it leads to one. -/
def FileTree.textAt? (files : FileTree) (uri : U) : Option String :=
  match (Addressing.filePath? uri).bind files.at? with
  | some (.text contents) => some contents
  | _ => none

/-- What the index holds of a document after it fell back to its file, by what it held before. -/
def FileTree.restored (files : FileTree) (uri : U) (before : Option CustomValues) :
    Option CustomValues :=
  match (Addressing.filePath? uri).bind fun path => (files.at? path).map (path, ·) with
  | some (path, .text contents) =>
    if Addressing.ofFile? path = some uri then some (declaredIn contents) else before
  | some (_, .binary) => before
  | _ => none

/-- A job by which a document falls back to its file, and how many stages it has left at most. -/
def Job.RestoresWithin (n : Nat) : Job U → Prop
  | clearing _ => 4 ≤ n
  | restoring _ => 3 ≤ n
  | reading _ => 2 ≤ n
  | indexing .. => 1 ≤ n
  | finished => True
  | _ => False

namespace Session

variable {s : Session U}

/-- Nothing stands in the way when a document falls back to its file: of a file that is no text the
index holds nothing, and a text has the address that is made from its path. -/
structure FallsBack (s : Session U) (files : FileTree) (uri : U) : Prop where
  unread : (Addressing.filePath? uri).bind files.at? = some .binary → s.entries? uri = none
  canonical : (files.textAt? uri).isSome = true → Addressing.IsCanonical uri

/-- What the disk has comes in the place of what the index held. -/
theorem FallsBack.restored_eq (h : s.FallsBack files uri) :
    files.restored uri (s.entries? uri) = (files.textAt? uri).map declaredIn := by
  obtain ⟨hunread, hcanonical⟩ := h
  simp only [FileTree.restored, FileTree.textAt?] at hcanonical ⊢
  cases hpath : Addressing.filePath? uri with
  | none => rfl
  | some path =>
    rw [hpath] at hunread hcanonical
    simp only [Option.bind_some] at hunread hcanonical ⊢
    cases hfile : files.at? path with
    | none => rfl
    | some file =>
      rw [hfile] at hunread hcanonical
      cases file with
      | text contents => exact if_pos (hcanonical rfl path hpath)
      | binary => exact hunread rfl
      | special | folder => rfl

/-- Where something stands in the way, the index goes on holding what it held. -/
theorem restored_of_not_fallsBack (h : ¬ s.FallsBack files uri) :
    files.restored uri (s.entries? uri) = s.entries? uri := by
  simp only [FileTree.restored]
  cases hpath : Addressing.filePath? uri with
  | none => exact absurd ⟨by simp [hpath], by simp [FileTree.textAt?, hpath]⟩ h
  | some path =>
    simp only [Option.bind_some]
    cases hfile : files.at? path with
    | none => exact absurd ⟨by simp [hpath, hfile], by simp [FileTree.textAt?, hpath, hfile]⟩ h
    | some file =>
      cases file with
      | text contents =>
        refine if_neg fun hsame => h ⟨by simp [hpath, hfile], fun _ p hp => ?_⟩
        cases hpath.symm.trans hp
        exact hsame
      | binary => rfl
      | special | folder =>
        exact absurd ⟨by simp [hpath, hfile], by simp [FileTree.textAt?, hpath, hfile]⟩ h

/-- What holds while a document falls back to its file: the job has found of the file what is there,
and the index holds what it held before, until the job is over. -/
def Restores (s : Session U) (files : FileTree) (uri : U) (before : Option CustomValues) :
    Job U → Prop
  | .clearing u | .restoring u => u = uri ∧ s.entries? uri = before
  | .reading path => Addressing.filePath? uri = some path ∧
      (files.at? path = some .binary ∨ ∃ contents, files.at? path = some (.text contents)) ∧
      s.entries? uri = before
  | .indexing path contents => Addressing.filePath? uri = some path ∧
      files.at? path = some (.text contents) ∧ s.entries? uri = before
  | .finished => s.entries? uri = files.restored uri before
  | _ => False

variable {before : Option CustomValues} {job : Job U} {around : Surroundings}

/-- Only what the index holds of the document matters to that. -/
theorem Restores.of_entries?_eq {t : Session U} (h : s.Restores files uri before job)
    (heq : t.entries? uri = s.entries? uri) : t.Restores files uri before job := by
  cases job with
  | clearing | restoring | reading | indexing | finished => simpa only [Restores, heq] using h
  | _ => exact h.elim

/-- Every stage of the job keeps it up. -/
theorem Restores.advance (h : s.Restores files uri before job) (hfiles : around.files = files) :
    (s.advance around job).1.Restores files uri before (s.advance around job).2.1 := by
  subst hfiles
  cases job with
  | clearing u => exact h
  | restoring u =>
    obtain ⟨rfl, hbefore⟩ := h
    have hremoved : (s.index.remove u).documents.get? u = none := by
      rw [get?_documents_remove, if_pos rfl]
    simp only [Session.advance, restore]
    cases hpath : Addressing.filePath? u with
    | none =>
      simp only [Restores, FileTree.restored, hpath, Option.bind_none]
      exact hremoved
    | some path =>
      simp only [Option.bind_some]
      cases hfile : around.files.at? path with
      | none =>
        simp only [Restores, FileTree.restored, hpath, hfile, Option.bind_some, Option.map_none]
        exact hremoved
      | some file =>
        cases file with
        | text contents => exact ⟨hpath, .inr ⟨contents, hfile⟩, hbefore⟩
        | binary => exact ⟨hpath, .inl hfile, hbefore⟩
        | special | folder =>
          simp only [Restores, FileTree.restored, hpath, hfile, Option.bind_some, Option.map_some]
          exact hremoved
  | reading path =>
    obtain ⟨hpath, hfile | ⟨contents, hfile⟩, hbefore⟩ := h
    · simpa [Session.advance, Search.textAt?, hfile, Restores, FileTree.restored, hpath]
        using hbefore
    · simpa [Session.advance, Search.textAt?, hfile, Restores, hpath] using hbefore
  | indexing path contents =>
    obtain ⟨hpath, hfile, hbefore⟩ := h
    have hentries := s.entries?_advance around (.indexing path contents) uri
    simp only [Job.writes?] at hentries
    change (s.advance around (.indexing path contents)).1.entries? uri = _
    simp only [FileTree.restored, hpath, hfile, Option.bind_some, Option.map_some]
    cases haddress : Addressing.ofFile? (U := U) path with
    | none =>
      rw [haddress] at hentries
      exact hentries.trans (hbefore.trans (if_neg (by simp)).symm)
    | some u =>
      rw [haddress] at hentries
      simp only [Option.map_some, hbefore] at hentries
      simpa only [Option.some.injEq] using hentries
  | finished => exact h
  | _ => exact h.elim

/-- Each stage leaves the job one stage less. -/
theorem restoresWithin_advance (s : Session U) (around : Surroundings) {job : Job U} {n : Nat}
    (h : job.RestoresWithin (n + 1)) : (s.advance around job).2.1.RestoresWithin n := by
  cases job with
  | clearing u => exact Nat.le_of_succ_le_succ h
  | restoring u =>
    simp only [Session.advance, Session.restore]
    split
    · exact Nat.le_of_succ_le_succ h
    · exact Nat.le_of_succ_le_succ h
    all_goals trivial
  | reading path =>
    simp only [Session.advance]
    split
    · exact Nat.le_of_succ_le_succ h
    · trivial
  | indexing | finished => trivial
  | _ => exact h.elim

end Session

namespace BusySession

variable {b : BusySession U} {step : BusyStep U} {steps : List (BusyStep U)} {place : Nat}
  {before : Option CustomValues}

/-- A step brings something into the index at an address by another job than the one at a place. -/
def WritesBeside (b : BusySession U) (uri : U) (place : Nat) : BusyStep U → Prop
  | .advance other around => other ≠ place ∧ ∃ j entries, b.jobs[other]? = some j ∧
      j.job.writes? around.files = some (uri, entries)
  | _ => False

/-- No step does so. -/
def NeverWritesBeside (uri : U) (place : Nat) (b : BusySession U) (steps : List (BusyStep U)) :
    Prop :=
  Throughout (fun b step => ¬ b.WritesBeside uri place step) b steps

/-- The job at a place is one by which a document falls back to its file. -/
def Restores (b : BusySession U) (files : FileTree) (uri : U) (before : Option CustomValues)
    (place : Nat) : Prop :=
  ∃ j, b.jobs[place]? = some j ∧ b.session.Restores files uri before j.job

/-- A step that brings nothing in beside the job keeps it up. -/
theorem Restores.take (h : b.Restores files uri before place)
    (hbeside : ¬ b.WritesBeside uri place step)
    (hfiles : ∀ around, step = .advance place around → around.files = files) :
    (b.take step).Restores files uri before place := by
  obtain ⟨j, hj, hrestores⟩ := h
  have happended (jobs : List (Underway U)) : (b.jobs ++ jobs)[place]? = some j := by
    rw [List.getElem?_append_left (List.getElem?_eq_some_iff.mp hj).1, hj]
  cases step with
  | event event =>
    rw [take_event]
    refine ⟨j.after event, ?_, ?_⟩
    · rw [List.getElem?_append_left (by simpa using (List.getElem?_eq_some_iff.mp hj).1),
        List.getElem?_map, hj, Option.map_some]
    · rw [Underway.job_after]
      exact hrestores.of_entries?_eq (by rw [Session.entries?, Session.index_hear]; rfl)
  | pass milliseconds => exact ⟨j, hj, hrestores.of_entries?_eq rfl⟩
  | wake other =>
    rcases b.take_wake_cases other with heq | ⟨run, jobs, -, heq, -⟩
    · rw [heq]
      exact ⟨j, hj, hrestores⟩
    · rw [heq]
      exact ⟨j, happended jobs, hrestores.of_entries?_eq rfl⟩
  | look u =>
    rcases b.take_look_cases u with heq | ⟨seen, -, heq⟩
    · rw [heq]
      exact ⟨j, hj, hrestores⟩
    · rw [heq]
      exact ⟨j, happended _, hrestores⟩
  | advance other around =>
    rcases b.take_advance_cases other around with heq | ⟨k, hk, heq⟩
    · rw [heq]
      exact ⟨j, hj, hrestores⟩
    · rw [heq]
      by_cases hplace : other = place
      · subst hplace
        cases hj.symm.trans hk
        refine ⟨{ j with job := (b.session.advance around j.job).2.1 }, ?_,
          hrestores.advance (hfiles around rfl)⟩
        rw [stage, List.getElem?_set_self (List.getElem?_eq_some_iff.mp hj).1]
      · refine ⟨j, (List.getElem?_set_ne hplace).trans hj, hrestores.of_entries?_eq ?_⟩
        rw [stage, Session.entries?_advance]
        split
        · next u entries hwrites =>
          refine if_neg fun hu : u = uri => hbeside ⟨hplace, k, entries, hk, hu ▸ hwrites⟩
        · rfl

/-- So does a whole course. -/
theorem Restores.takeAll (h : b.Restores files uri before place)
    (hbeside : NeverWritesBeside uri place b steps)
    (hfiles : ∀ around, .advance place around ∈ steps → around.files = files) :
    (b.takeAll steps).Restores files uri before place := by
  induction steps generalizing b with
  | nil => exact h
  | cons step steps ih =>
    refine ih (h.take hbeside.1 ?_) hbeside.2 fun around hmem =>
      hfiles around (List.mem_cons_of_mem _ hmem)
    rintro around rfl
    exact hfiles around List.mem_cons_self

/-- The index holds of a document what the file at its address declares, with the value of the last
declaration of each name, and nothing if no text is there. -/
def Restored (b : BusySession U) (files : FileTree) (uri : U) : Prop :=
  ∀ name value, b.session.index.Declares uri name value ↔
    ∃ contents d, files.textAt? uri = some contents ∧
      (parse contents).1.lastDeclaration? name = some d ∧
        value = Text.trimString (d.valueText contents)

/-- A document is closed while a session goes on, and after some steps the job that this leaves behind
is over, which finds some files on the disk. -/
structure Closes (b : BusySession U) (files : FileTree) (uri : U) (steps : List (BusyStep U)) :
    Prop where
  finds : ∀ around, .advance b.jobs.length around ∈ steps → around.files = files
  ends : ((b.take (.event (.closed uri))).takeAll steps).jobs[b.jobs.length]?.map Underway.job =
    some .finished

/-- The closing leaves a job behind by which the document falls back to its file. -/
theorem restores_of_closed (b : BusySession U) (files : FileTree) (uri : U) :
    (b.take (.event (.closed uri))).Restores files uri (b.session.entries? uri) b.jobs.length := by
  rw [take_event]
  refine ⟨⟨.clearing uri, false⟩, ?_, rfl, rfl⟩
  rw [List.getElem?_append_right (by simp)]
  simp [Event.job?]

/-- When that job is over, the index holds of the document what it should, or still what it held. -/
theorem Closes.entries?_eq (h : b.Closes files uri steps)
    (hbeside : NeverWritesBeside uri b.jobs.length (b.take (.event (.closed uri))) steps) :
    ((b.take (.event (.closed uri))).takeAll steps).session.entries? uri =
      files.restored uri (b.session.entries? uri) := by
  obtain ⟨j, hj, hrestores⟩ := (b.restores_of_closed files uri).takeAll hbeside h.finds
  have hends := h.ends
  rw [hj, Option.map_some] at hends
  rwa [Option.some.inj hends] at hrestores

/-- Whatever goes on in a session: after a document was closed and what that leaves behind is over,
the index holds of it what the file at its address declares, if nothing stands in the way and nothing
else was brought in meanwhile. Where something stands in the way, it holds what it held before. -/
theorem closed_document_restored (h : b.Closes files uri steps)
    (hbeside : NeverWritesBeside uri b.jobs.length (b.take (.event (.closed uri))) steps) :
    (b.session.FallsBack files uri →
      ((b.take (.event (.closed uri))).takeAll steps).Restored files uri) ∧
    (¬ b.session.FallsBack files uri →
      ((b.take (.event (.closed uri))).takeAll steps).session.entries? uri =
        b.session.entries? uri) := by
  have hentries := h.entries?_eq hbeside
  refine ⟨fun hfalls name value => ?_, fun hnot =>
    hentries.trans (Session.restored_of_not_fallsBack hnot)⟩
  rw [hfalls.restored_eq, Session.entries?] at hentries
  simp only [Declares, hentries, Option.map_eq_some_iff]
  constructor
  · rintro ⟨_, ⟨contents, hcontents, rfl⟩, hmem⟩
    obtain ⟨d, hd, hvalue⟩ := mem_declaredIn.mp hmem
    exact ⟨contents, d, hcontents, hd, hvalue⟩
  · rintro ⟨contents, d, hcontents, hd, hvalue⟩
    exact ⟨_, ⟨contents, hcontents, rfl⟩, mem_declaredIn.mpr ⟨d, hd, hvalue⟩⟩

/-! ## A session that only goes on with that -/

/-- The job at a place goes through some stages. -/
def goesOn (place : Nat) (files : FileTree) (n : Nat) : List (BusyStep U) :=
  List.replicate n (.advance place ⟨files, none, false⟩)

/-- A job that falls back to a file is over after the stages that it has left. -/
theorem job_takeAll_goesOn {n : Nat} {j : Underway U} (hj : b.jobs[place]? = some j)
    (hwithin : j.job.RestoresWithin n) :
    ((b.takeAll (goesOn place files n)).jobs[place]?).map Underway.job = some .finished := by
  induction n generalizing b j with
  | zero =>
    have hover : j.job = .finished := by
      cases hjob : j.job <;> rw [hjob] at hwithin <;> first | rfl | cases hwithin
    simp only [goesOn, List.replicate_zero, takeAll, List.foldl_nil, hj, Option.map_some, hover]
  | succ n ih =>
    have hnext : (b.stage place ⟨files, none, false⟩ j).jobs[place]? =
        some ⟨(b.session.advance ⟨files, none, false⟩ j.job).2.1, j.outlived⟩ := by
      rw [stage, List.getElem?_set_self (List.getElem?_eq_some_iff.mp hj).1]
    rw [goesOn, List.replicate_succ, takeAll, List.foldl_cons, take_advance hj]
    exact ih hnext (Session.restoresWithin_advance b.session ⟨files, none, false⟩ hwithin)

/-- It brings in nothing by another job. -/
theorem neverWritesBeside_goesOn (b : BusySession U) (uri : U) (place : Nat) (files : FileTree)
    (n : Nat) : NeverWritesBeside uri place b (goesOn place files n) := by
  induction n generalizing b with
  | zero => trivial
  | succ n ih => exact ⟨fun h => h.1 rfl, ih _⟩

/-- After a closing four stages are left. -/
theorem closes_goesOn (b : BusySession U) (files : FileTree) (uri : U) :
    b.Closes files uri (goesOn b.jobs.length files 4) where
  finds around h := by
    cases List.eq_of_mem_replicate h
    rfl
  ends := by
    obtain ⟨j, hj, hjob⟩ : ∃ j, (b.take (.event (.closed uri))).jobs[b.jobs.length]? = some j ∧
        j.job = .clearing uri := by
      rw [take_event]
      refine ⟨⟨.clearing uri, false⟩, ?_, rfl⟩
      rw [List.getElem?_append_right (by simp)]
      simp [Event.job?]
    exact job_takeAll_goesOn hj (hjob ▸ Nat.le_refl 4)

/-- A document is opened, and a run for it begins. -/
def runUnderway (uri : U) : List (BusyStep U) :=
  [.event (.opened uri 1 "x\x7b--b:1\x7d"), .pass openDelay, .wake 0]

/-- The run is made to its end. -/
def lookedAt (uri : U) : List (BusyStep U) := runUnderway uri ++ goesOn 0 .empty 3

/-- After its run the index holds what the document declares. -/
theorem takeAll_lookedAt (uri : U) :
    (start.takeAll (lookedAt uri)).session.entries? uri = some [("--b", "1")] := by
  have htext : declaredIn "x\x7b--b:1\x7d" = [("--b", "1")] := by cbv
  simp [lookedAt, runUnderway, goesOn, takeAll, take, start, Session.start, hear, Session.hear,
    Session.putDocument, Session.schedule, Event.job?, openDelay, Session.look?, Session.snapshot?,
    Option.filter_some, begin, Dictionary.put, Dictionary.get?, Document.opened, Document.snapshot,
    Session.advance, Session.indexSeen, Session.stillShows, Document.matchesSnapshot, Session.keep,
    Document.store, Session.entries?, indexText, get?_documents_insert, htext]

/-- The address of the file that declares something else leads back to the file. -/
theorem filePath?_aCss : Addressing.filePath? (Url.ofFile ["a.css"]) =
    some ⟨["a.css"], false, true⟩ := by
  decide +kernel

/-- A document that was opened and looked at is closed, and its file declares something else. -/
theorem closed_document_restored_of_other_text :
    (start.takeAll (lookedAt (Url.ofFile ["a.css"]))).Closes
        (.folder [("a.css", .text "x\x7b--b: 2 \x7d")]) (.ofFile ["a.css"]) (goesOn
          (start.takeAll (lookedAt (Url.ofFile ["a.css"]))).jobs.length
          (.folder [("a.css", .text "x\x7b--b: 2 \x7d")]) 4) ∧
      (start.takeAll (lookedAt (Url.ofFile ["a.css"]))).session.FallsBack
        (.folder [("a.css", .text "x\x7b--b: 2 \x7d")]) (.ofFile ["a.css"]) ∧
      (((start.takeAll (lookedAt (Url.ofFile ["a.css"]))).take
        (.event (.closed (.ofFile ["a.css"])))).takeAll (goesOn
          (start.takeAll (lookedAt (Url.ofFile ["a.css"]))).jobs.length
          (.folder [("a.css", .text "x\x7b--b: 2 \x7d")]) 4)).session.index.Declares
        (.ofFile ["a.css"]) "--b" "2" := by
  have htext : (FileTree.folder [("a.css", .text "x\x7b--b: 2 \x7d")]).textAt?
      (Url.ofFile ["a.css"]) = some "x\x7b--b: 2 \x7d" := by
    rw [FileTree.textAt?, filePath?_aCss]
    rfl
  have hfalls : (start.takeAll (lookedAt (Url.ofFile ["a.css"]))).session.FallsBack
      (.folder [("a.css", .text "x\x7b--b: 2 \x7d")]) (.ofFile ["a.css"]) := by
    refine ⟨fun hbinary => ?_, fun _ path hpath => ?_⟩
    · rw [filePath?_aCss] at hbinary
      cases hbinary
    · cases filePath?_aCss.symm.trans hpath
      rfl
  have hvalue : ((parse "x\x7b--b: 2 \x7d").1.lastDeclaration? "--b").map (fun d =>
      Text.trimString (d.valueText "x\x7b--b: 2 \x7d")) = some "2" := by cbv
  obtain ⟨d, hd, htrimmed⟩ := Option.map_eq_some_iff.mp hvalue
  have hcloses := closes_goesOn (start.takeAll (lookedAt (Url.ofFile ["a.css"])))
    (.folder [("a.css", .text "x\x7b--b: 2 \x7d")]) (.ofFile ["a.css"])
  have hrestored := (closed_document_restored hcloses (neverWritesBeside_goesOn _ _ _ _ _)).1 hfalls
  exact ⟨hcloses, hfalls, (hrestored "--b" "2").mpr ⟨_, d, htext, hd, htrimmed.symm⟩⟩

/-- A job at another place stays where it is. -/
theorem getElem?_jobs_takeAll_goesOn {other : Nat} (hother : other ≠ place) (b : BusySession U)
    (files : FileTree) (n : Nat) :
    (b.takeAll (goesOn place files n)).jobs[other]? = b.jobs[other]? := by
  induction n generalizing b with
  | zero => rfl
  | succ n ih =>
    rw [goesOn, List.replicate_succ, takeAll, List.foldl_cons]
    refine (ih _).trans ?_
    rcases b.take_advance_cases place ⟨files, none, false⟩ with heq | ⟨j, -, heq⟩
    · rw [heq]
    · rw [heq, stage, List.getElem?_set_ne hother.symm]

/-- The run that is under way has seen the text. -/
theorem jobs_runUnderway (uri : U) : (start.takeAll (runUnderway uri)).jobs =
    [⟨.computing ⟨uri, 1, openDelay, ⟨false, true, .expanded, 80⟩⟩ ⟨"x\x7b--b:1\x7d", 1, 0⟩,
      false⟩] := by
  simp [runUnderway, takeAll, take, start, Session.start, hear, Session.hear,
    Session.putDocument, Session.schedule, Event.job?, openDelay, Session.look?, Session.snapshot?,
    Option.filter_some, begin, Dictionary.put, Dictionary.get?, Document.opened, Document.snapshot]

/-- A run that is under way when its document is closed brings in what the document declared, after
everything else. -/
theorem entries?_runUnderway (uri : U) (files : FileTree) :
    (start.takeAll (runUnderway uri)).Closes files uri (goesOn 1 files 4 ++ goesOn 0 files 1) ∧
      (((start.takeAll (runUnderway uri)).take (.event (.closed uri))).takeAll
        (goesOn 1 files 4 ++ goesOn 0 files 1)).session.entries? uri = some [("--b", "1")] := by
  have hlength : (start.takeAll (runUnderway uri)).jobs.length = 1 := by
    rw [jobs_runUnderway]
    rfl
  have hends := (closes_goesOn (start.takeAll (runUnderway uri)) files uri).ends
  rw [hlength] at hends
  refine ⟨⟨fun around hmem => ?_, ?_⟩, ?_⟩
  · rw [hlength] at hmem
    rcases List.mem_append.mp hmem with hmem | hmem <;> cases List.eq_of_mem_replicate hmem
    rfl
  · rw [takeAll_append, hlength, getElem?_jobs_takeAll_goesOn Nat.one_ne_zero]
    exact hends
  · have htext : declaredIn "x\x7b--b:1\x7d" = [("--b", "1")] := by cbv
    have hrun : (((start.takeAll (runUnderway uri)).take (.event (.closed uri))).takeAll
        (goesOn 1 files 4)).jobs[0]? = some ⟨.computing
          ⟨uri, 1, openDelay, ⟨false, true, .expanded, 80⟩⟩ ⟨"x\x7b--b:1\x7d", 1, 0⟩, true⟩ := by
      rw [getElem?_jobs_takeAll_goesOn Nat.zero_ne_one, take_event, jobs_runUnderway]
      simp [Underway.after, Job.seen?]
    have honce (b : BusySession U) :
        b.takeAll (goesOn 0 files 1) = b.take (.advance 0 ⟨files, none, false⟩) := rfl
    rw [takeAll_append, honce, take_advance hrun, stage, Session.entries?_advance, ← htext]
    exact if_pos rfl

/-- What an open document declared stays in the index when its file is no text, even under its
canonical address; when its file is a text, under an address that is not canonical; and when a run
for it is under way, even if nothing else stands in the way. -/
theorem closed_document_kept :
    (¬ ∀ (before steps : List (BusyStep Url)) files uri, Addressing.IsCanonical uri →
      (start.takeAll before).Closes files uri steps →
        NeverWritesBeside uri (start.takeAll before).jobs.length
            ((start.takeAll before).take (.event (.closed uri))) steps →
          (((start.takeAll before).take (.event (.closed uri))).takeAll steps).Restored files uri) ∧
    (¬ ∀ (before steps : List (BusyStep Url)) files uri, (files.textAt? uri).isSome = true →
      (start.takeAll before).Closes files uri steps →
        NeverWritesBeside uri (start.takeAll before).jobs.length
            ((start.takeAll before).take (.event (.closed uri))) steps →
          (((start.takeAll before).take (.event (.closed uri))).takeAll steps).Restored files uri) ∧
    ¬ ∀ (before steps : List (BusyStep Url)) files uri,
      (start.takeAll before).session.FallsBack files uri →
      (start.takeAll before).Closes files uri steps →
        (((start.takeAll before).take (.event (.closed uri))).takeAll steps).Restored files uri := by
  have hkept {b : BusySession Url} {uri : Url} {entries : CustomValues}
      (h : b.session.entries? uri = some entries) {name value : String}
      (hmem : (name, value) ∈ entries) : b.session.index.Declares uri name value :=
    ⟨entries, h, hmem⟩
  refine ⟨fun hall => ?_, fun hall => ?_, fun hall => ?_⟩
  · have hcanonical : Addressing.IsCanonical (Url.ofFile ["a.css"]) := fun path hpath => by
      cases filePath?_aCss.symm.trans hpath
      rfl
    have hcloses := closes_goesOn (start.takeAll (lookedAt (Url.ofFile ["a.css"])))
      (.folder [("a.css", .binary)]) (.ofFile ["a.css"])
    have hentries := hcloses.entries?_eq (neverWritesBeside_goesOn _ _ _ _ _)
    rw [takeAll_lookedAt, FileTree.restored, filePath?_aCss] at hentries
    obtain ⟨contents, d, hcontents, -⟩ := (hall _ _ _ _ hcanonical hcloses
      (neverWritesBeside_goesOn _ _ _ _ _) "--b" "1").mp (hkept hentries List.mem_cons_self)
    rw [FileTree.textAt?, filePath?_aCss] at hcontents
    cases hcontents
  · have htext : (FileTree.folder [("a.css", .text "")]).textAt? Url.escapedACss = some "" := by
      rw [FileTree.textAt?, Url.filePath?_escapedACss]
      rfl
    have hother : Addressing.ofFile? (FilePath.mk ["a.css"] false true) ≠
        some Url.escapedACss := by decide +kernel
    have hcloses := closes_goesOn (start.takeAll (lookedAt Url.escapedACss))
      (.folder [("a.css", .text "")]) Url.escapedACss
    have hentries := hcloses.entries?_eq (neverWritesBeside_goesOn _ _ _ _ _)
    rw [takeAll_lookedAt, FileTree.restored, Url.filePath?_escapedACss] at hentries
    obtain ⟨contents, d, hcontents, hd, -⟩ := (hall _ _ _ _ (by rw [htext]; rfl) hcloses
      (neverWritesBeside_goesOn _ _ _ _ _) "--b" "1").mp
        (hkept (hentries.trans (if_neg hother)) List.mem_cons_self)
    cases htext.symm.trans hcontents
    have hnone : (parse "").1.lastDeclaration? "--b" = none := by cbv
    cases hnone.symm.trans hd
  · obtain ⟨hcloses, hentries⟩ := entries?_runUnderway (Url.ofFile ["a.css"]) .empty
    have hfalls : (start.takeAll (runUnderway (Url.ofFile ["a.css"]))).session.FallsBack .empty
        (.ofFile ["a.css"]) := by
      refine ⟨fun hbinary => ?_, fun htext => ?_⟩
      · rw [filePath?_aCss] at hbinary
        cases hbinary
      · rw [FileTree.textAt?, filePath?_aCss] at htext
        cases htext
    obtain ⟨contents, d, hcontents, -⟩ :=
      (hall _ _ _ _ hfalls hcloses "--b" "1").mp (hkept hentries List.mem_cons_self)
    rw [FileTree.textAt?, filePath?_aCss] at hcontents
    cases hcontents

end BusySession

end CssWorkbench
