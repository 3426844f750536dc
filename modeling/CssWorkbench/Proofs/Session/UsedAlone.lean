import CssWorkbench.Proofs.Session.UndisturbedCourses
import CssWorkbench.Proofs.Workspace.ScannedFolders
import CssWorkbench.Session.Request

/-!
# Sessions that are used alone

An event, a wait and a request are made without a break by `Session.handle`, `Session.wait` and
`Session.answer`. Each of these is an undisturbed course of a busy session, in which one job is worked
off after the other. So what holds along undisturbed courses holds of sessions that are used alone,
too: stored trees are those of their texts, and when no run is to come, the index and what the
editor was told last are up with the documents.
-/

namespace CssWorkbench

variable {U : Type} [DecidableEq U] [Addressing U] {s s' s'' : Session U} {around : Surroundings}
  {told more : List (Announcement U)} {job : Job U} {b : BusySession U} {uri : U}
  {closed : U → Prop}

/-! ## Jobs that are worked off -/

omit [Addressing U] in
/-- An event takes no job up again that is through. -/
theorem BusySession.IsIdle.hear (h : b.IsIdle) (event : Event U) : (b.hear event).IsIdle := by
  intro j hj
  obtain ⟨k, hk, rfl⟩ := List.mem_map.mp hj
  rw [Underway.job_after]
  exact h k hk

/-- A job that goes on alone takes a session to another one, stage by stage, and tells something on
the way. -/
inductive Session.WorkedOff (around : Surroundings) :
    Session U → Job U → Session U → List (Announcement U) → Prop
  | through (s : Session U) : WorkedOff around s .finished s []
  | stage {s s' : Session U} {job : Job U} {told : List (Announcement U)}
      (h : WorkedOff around (s.advance around job).1 (s.advance around job).2.1 s' told) :
      WorkedOff around s job s' ((s.advance around job).2.2 ++ told)

namespace Session

/-- A job is worked off from its next stage on. -/
theorem WorkedOff.of_advance {next : Job U} (hadvance : s.advance around job = (s', next, told))
    (h : WorkedOff around s' next s'' more) : WorkedOff around s job s'' (told ++ more) := by
  have hstage : WorkedOff around (s.advance around job).1 (s.advance around job).2.1 s'' more →
      WorkedOff around s job s'' ((s.advance around job).2.2 ++ more) := .stage
  rw [hadvance] at hstage
  exact hstage h

/-- A job is worked off by its last stage. -/
theorem WorkedOff.of_last (h : s.advance around job = (s', .finished, told)) :
    WorkedOff around s job s' told :=
  List.append_nil told ▸ WorkedOff.of_advance h (.through s')

/-- A busy session takes the stages of a job one after the other. -/
theorem WorkedOff.exists_steps (h : WorkedOff around s job s' told) {place : Nat} {outlived : Bool}
    (hs : b.session = s) (hj : b.jobs[place]? = some ⟨job, outlived⟩) :
    ∃ steps, b.Undisturbed steps ∧ (∀ event, .event event ∉ steps) ∧ b.takeAll steps =
      ⟨s', b.jobs.set place ⟨.finished, outlived⟩, b.told ++ told⟩ := by
  induction h generalizing b with
  | through s =>
    refine ⟨[], trivial, fun _ => List.not_mem_nil, ?_⟩
    obtain ⟨hplace, hget⟩ := List.getElem?_eq_some_iff.mp hj
    rw [← hget, List.set_getElem_self, List.append_nil, ← hs]
    rfl
  | @stage s s' job told h ih =>
    subst hs
    obtain ⟨steps, hundisturbed, hnone, hsteps⟩ := ih (b := b.stage place around ⟨job, outlived⟩) rfl
      (List.getElem?_set_self (List.getElem?_eq_some_iff.mp hj).1)
    rw [← BusySession.take_advance hj] at hundisturbed hsteps
    refine ⟨.advance place around :: steps, ⟨.inr ⟨place, around, rfl⟩, hundisturbed⟩,
      fun event hmem => ?_, hsteps.trans ?_⟩
    · exact (List.mem_cons.mp hmem).elim (fun heq => by cases heq) (hnone event)
    · rw [BusySession.take_advance hj]
      simp [BusySession.stage, List.set_set]

/-! ## Searches -/

/-- Turns of a search are stages of the job that searches. -/
theorem WorkedOff.of_turns {n indexed : Nat} {search search' : Search} {index' : PropertyIndex U}
    {roots : List FilePath} {progress : Bool}
    (hturns : search.turns around.files [] s.documents.has n s.index = some (search', index'))
    (h : WorkedOff around { s with index := index' } (.searching roots search' indexed progress)
      s' told) :
    WorkedOff around s (.searching roots search indexed progress) s' told := by
  induction n generalizing s search with
  | zero =>
    cases hturns
    exact h
  | succ n ih =>
    obtain ⟨⟨next, index⟩, hturn, hrest⟩ := Option.bind_eq_some_iff.mp hturns
    cases hover : search.isOver with
    | true =>
      -- A search that is at its end takes turns in which nothing happens.
      obtain ⟨folders, folder, entries, file, count⟩ := search
      simp only [Search.isOver, Bool.and_eq_true, List.isEmpty_iff,
        Option.isNone_iff_eq_none] at hover
      obtain ⟨⟨rfl, rfl⟩, rfl⟩ := hover
      cases hturn
      exact ih hrest h
    | false =>
      have hadvance : s.advance around (.searching roots search indexed progress) =
          ({ s with index }, .searching roots next indexed progress, []) := by
        simp [advance, searchOn, hover, hturn]
      exact .of_advance hadvance (ih hrest h)

/-- A session after the stylesheets below a folder were indexed. -/
def indexBelow (s : Session U) (root : FilePath) (entries : List (String × FileTree)) : Session U :=
  let found := addressed s.documents.has ((FileTree.folder entries).stylesheets root)
  { s with index := s.index.indexFound found }

/-- A root that is a folder is searched, and then the others are. -/
theorem scanRoots_folder {files : FileTree} {root : FilePath} {entries : List (String × FileTree)}
    (hfolder : files.at? root = some (.folder entries)) (s : Session U) (roots : List FilePath) :
    s.scanRoots files (root :: roots) =
      ((addressed s.documents.has ((FileTree.folder entries).stylesheets root)).length +
        ((s.indexBelow root entries).scanRoots files roots).1,
        ((s.indexBelow root entries).scanRoots files roots).2) := by
  simp only [scanRoots, hfolder]
  rfl

/-- A root that is no folder is passed over. -/
theorem scanRoots_of_not_folder {files : FileTree} {root : FilePath}
    (hfolder : ∀ entries, files.at? root ≠ some (.folder entries)) (s : Session U)
    (roots : List FilePath) :
    s.scanRoots files (root :: roots) = s.scanRoots files roots := by
  rw [scanRoots]
  split
  · next entries h => exact absurd h (hfolder entries)
  · rfl

/-- The roots of a workspace are searched one after the other, and all that was indexed counts. -/
theorem workedOff_searching {roots : List FilePath} (hnamed : around.files.WellNamed)
    (s : Session U) {search : Search} (hover : search.isOver = true) (indexed : Nat)
    (progress : Bool) :
    WorkedOff around s (.searching roots search indexed progress)
      (s.scanRoots around.files roots).2
      (if progress then
        [.endProgress (indexed + search.indexed + (s.scanRoots around.files roots).1)] else []) := by
  induction roots generalizing s search indexed with
  | nil => exact .of_last (by simp [advance, searchOn, hover, scanRoots])
  | cons root roots ih =>
    have hnext : s.advance around (.searching (root :: roots) search indexed progress) =
        (s, .searching roots (.start root) (indexed + search.indexed) progress, []) := by
      simp [advance, searchOn, hover]
    refine .of_advance hnext ?_
    by_cases hfolder : ∃ entries, around.files.at? root = some (.folder entries)
    · obtain ⟨entries, hfolder⟩ := hfolder
      obtain ⟨last, n, hturns⟩ := Search.worksOff hfolder (hnamed.at? hfolder) s.documents.has []
        root 0 s.index
      refine .of_turns hturns ?_
      rw [scanRoots_folder hfolder]
      rw [Nat.zero_add, ← Nat.add_assoc]
      exact ih (s.indexBelow root entries) rfl (indexed + search.indexed)
    · have hfolder : ∀ entries, around.files.at? root ≠ some (.folder entries) :=
        fun entries h => hfolder ⟨entries, h⟩
      have hended : s.advance around
          (.searching roots (.start root) (indexed + search.indexed) progress) =
            (s, .searching roots .finished (indexed + search.indexed) progress, []) := by
        have hover : (Search.start root).isOver = false := rfl
        have hturn : (Search.start root).turn around.files [] s.documents.has s.index = none := by
          simp only [Search.start, Search.turn]
        simp [advance, searchOn, hover, hturn]
      rw [scanRoots_of_not_folder hfolder]
      exact .of_advance hended (ih s rfl (indexed + search.indexed))

/-- The workspace is indexed by the jobs that show its progress. -/
theorem workedOff_configuring (hnamed : around.files.WellNamed) (s : Session U) :
    WorkedOff around s (.configuring true) ((s.configure around).indexWorkspace around).1
      ((s.configure around).indexWorkspace around).2 := by
  have hroots : (s.configure around).roots = s.roots := by rw [configure_eq]
  rw [indexWorkspace, hroots]
  cases hempty : s.roots.isEmpty with
  | true => exact .of_last (by simp [advance, hempty])
  | false =>
    have hnext : s.advance around (.configuring true) =
        (s.configure around, .showing s.roots, [.askProgress]) := by
      simp [advance, hempty]
    have hsearch : WorkedOff around (s.configure around)
        (.searching s.roots .finished 0 around.progress) _ _ :=
      workedOff_searching hnamed (s.configure around) rfl 0 around.progress
    have hshowing : (s.configure around).advance around (.showing s.roots) =
        (s.configure around, .searching s.roots .finished 0 around.progress,
          if around.progress then [.beginProgress] else []) := rfl
    have hall := WorkedOff.of_advance hnext (.of_advance hshowing hsearch)
    cases hprogress : around.progress <;> simpa [hprogress, Search.finished] using hall

/-- The file of a document that was closed is read and indexed in stages. -/
theorem workedOff_clearing (s : Session U) (uri : U) :
    WorkedOff around s (.clearing uri) (s.reindex around.files uri) [.clearing uri] := by
  have hnext : s.advance around (.clearing uri) = (s, .restoring uri, [.clearing uri]) := rfl
  refine WorkedOff.of_advance hnext ?_
  cases hpath : Addressing.filePath? uri with
  | none => exact .of_last (by simp [advance, restore, reindex, hpath])
  | some path =>
    have hrestoring {file : FileTree} (hfile : around.files.at? path = some file)
        (hread : (∃ contents, file = .text contents) ∨ file = .binary) :
        s.advance around (.restoring uri) = (s, .reading path, []) := by
      rcases hread with ⟨contents, rfl⟩ | rfl <;> simp [advance, restore, hpath, hfile]
    cases hfile : around.files.at? path with
    | none => exact .of_last (by simp [advance, restore, reindex, hpath, hfile])
    | some file =>
      cases file with
      | special | folder => exact .of_last (by simp [advance, restore, reindex, hpath, hfile])
      | text contents =>
        have hreading : s.advance around (.reading path) = (s, .indexing path contents, []) := by
          simp [advance, Search.textAt?, hfile]
        have hindexing : s.advance around (.indexing path contents) =
            (s.reindex around.files uri, .finished, []) := by
          simp [advance, reindex, hpath, hfile]
        exact .of_advance (hrestoring hfile (.inl ⟨contents, rfl⟩))
          (.of_advance hreading (.of_last hindexing))
      | binary =>
        have hreading : s.advance around (.reading path) =
            (s.reindex around.files uri, .finished, []) := by
          simp [advance, reindex, Search.textAt?, hpath, hfile]
        exact .of_advance (hrestoring hfile (.inr rfl)) (.of_last hreading)

omit [Addressing U] in
/-- A document that was indexed as a run saw it still stands there as the run saw it. -/
theorem stillShows_indexSeen {run : PendingRun U} {seen : Snapshot}
    (hlook : s.look? run = some seen) :
    (s.indexSeen run.uri seen).stillShows run.uri seen = true :=
  have hseen : s.snapshot? run.uri = some seen := (Option.filter_eq_some_iff.mp hlook).1
  stillShows_iff.mpr ⟨seen, hseen, rfl, rfl⟩

omit [Addressing U] in
/-- A run that is made without a break finds its document as it saw it. -/
theorem fire_of_look? {run : PendingRun U} {seen : Snapshot} (hlook : s.look? run = some seen) :
    s.fire run = ((s.indexSeen run.uri seen).keep run.uri seen, [run.report seen]) := by
  simp only [fire, hlook, stillShows_indexSeen hlook, if_true]

/-- A run that saw its document is worked off in three stages. -/
theorem workedOff_computing (s : Session U) {run : PendingRun U} {seen : Snapshot}
    (hlook : s.look? run = some seen) :
    WorkedOff around s (.computing run seen) (s.fire run).1 (s.fire run).2 := by
  have hcomputed : s.advance around (.computing run seen) =
      (s.indexSeen run.uri seen, .checking run seen, []) := rfl
  have hchecked : (s.indexSeen run.uri seen).advance around (.checking run seen) =
      ((s.indexSeen run.uri seen).keep run.uri seen, .publishing run seen, []) := by
    simp only [advance, stillShows_indexSeen hlook, if_true]
  rw [fire_of_look? hlook]
  exact .of_advance hcomputed (.of_advance hchecked (.of_last rfl))

/-- A request that reads a text stores its tree. -/
theorem workedOff_answering (s : Session U) (uri : U) (seen : Snapshot) :
    WorkedOff around s (.answering uri seen) (s.keep uri seen) [] :=
  .of_last rfl

/-! ## Courses without disturbance -/

/-- While nothing else goes on, a session comes to another one by some steps, in which documents are
closed at some addresses only, and tells something on the way. -/
def ComesTo (closed : U → Prop) (s s' : Session U) (told : List (Announcement U)) : Prop :=
  ∀ b : BusySession U, b.session = s → b.IsIdle → ∃ steps, b.Undisturbed steps ∧
    BusySession.ClosesOnly closed steps ∧ (b.takeAll steps).session = s' ∧ (b.takeAll steps).IsIdle ∧
      (b.takeAll steps).told = b.told ++ told

/-- A session is where it is. -/
theorem ComesTo.refl (s : Session U) : ComesTo closed s s [] :=
  fun b hs hidle => ⟨[], trivial, fun _ h => absurd h List.not_mem_nil, hs, hidle,
    (List.append_nil b.told).symm⟩

/-- Courses are put together. -/
theorem ComesTo.trans (h : ComesTo closed s s' told) (h' : ComesTo closed s' s'' more) :
    ComesTo closed s s'' (told ++ more) := by
  intro b hs hidle
  obtain ⟨steps, hundisturbed, hclosed, hs', hidle', htold⟩ := h b hs hidle
  obtain ⟨steps', hundisturbed', hclosed', hs'', hidle'', htold'⟩ :=
    h' (b.takeAll steps) hs' hidle'
  refine ⟨steps ++ steps', hundisturbed.append hundisturbed', fun uri hmem =>
    (List.mem_append.mp hmem).elim (hclosed uri) (hclosed' uri), ?_⟩
  rw [BusySession.takeAll_append]
  exact ⟨hs'', hidle'', by rw [htold', htold, List.append_assoc]⟩

/-- A step that begins nothing is a course. -/
theorem ComesTo.of_step (step : BusyStep U)
    (hclosed : ∀ uri, step = .event (.closed uri) → closed uri)
    (h : ∀ b : BusySession U, b.session = s → b.IsIdle → (b.take step).session = s' ∧
      (b.take step).IsIdle ∧ (b.take step).told = b.told ++ told) :
    ComesTo closed s s' told :=
  fun b hs hidle => ⟨[step], ⟨.inl hidle, trivial⟩,
    fun uri hmem => hclosed uri (List.mem_singleton.mp hmem).symm, h b hs hidle⟩

/-- A step that begins a job is followed by the stages of the job. -/
theorem WorkedOff.comesTo (h : WorkedOff around s' job s'' more) (step : BusyStep U)
    (hclosed : ∀ uri, step = .event (.closed uri) → closed uri)
    (hstep : ∀ b : BusySession U, b.session = s → b.IsIdle → ∃ idle : BusySession U,
      b.take step = idle.begin job ∧ idle.session = s' ∧ idle.IsIdle ∧
        idle.told = b.told ++ told) : ComesTo closed s s'' (told ++ more) := by
  intro b hs hidle
  obtain ⟨idle, htake, hs', hjobs, htold⟩ := hstep b hs hidle
  have hlast : (idle.begin job).jobs[idle.jobs.length]? = some ⟨job, false⟩ :=
    List.getElem?_concat_length
  obtain ⟨steps, hundisturbed, hnone, hsteps⟩ := h.exists_steps (b := idle.begin job) hs' hlast
  rw [← htake] at hundisturbed
  refine ⟨step :: steps, ⟨.inl hidle, hundisturbed⟩, fun uri hmem =>
    (List.mem_cons.mp hmem).elim (fun heq => hclosed uri heq.symm) fun hmem =>
      absurd hmem (hnone _), ?_⟩
  have htakeAll : b.takeAll (step :: steps) = (idle.begin job).takeAll steps :=
    congrArg (·.takeAll steps) htake
  have hthrough : (idle.begin job).jobs.set idle.jobs.length ⟨.finished, false⟩ =
      idle.jobs ++ [⟨.finished, false⟩] := by simp [BusySession.begin]
  rw [htakeAll, hsteps, hthrough]
  refine ⟨rfl, List.forall_mem_append.mpr ⟨hjobs, List.forall_mem_singleton.mpr rfl⟩, ?_⟩
  simp only [BusySession.begin, htold, List.append_assoc]

/-- An event that is handled without a break is a course. -/
theorem comesTo_handle (hnamed : around.files.WellNamed) (s : Session U) (event : Event U)
    (hclosed : ∀ uri, event = .closed uri → closed uri) :
    ComesTo closed s (s.handle around event).1 (s.handle around event).2 := by
  have hbegin {job : Job U} {s' : Session U} {told : List (Announcement U)}
      (hjob : event.job? = some job) (h : WorkedOff around (s.hear event) job s' told) :
      ComesTo closed s s' (event.announcements ++ told) :=
    h.comesTo (.event event) (fun uri heq => hclosed uri (by cases heq; rfl)) fun b hs hidle =>
      ⟨b.hear event, by simp [BusySession.take, hjob], hs ▸ rfl, hidle.hear event, rfl⟩
  have halone (hjob : event.job? = none) :
      ComesTo closed s (s.hear event) event.announcements := by
    refine .of_step (.event event) (fun uri heq => hclosed uri (by cases heq; rfl))
      fun b hs hidle => ?_
    simp only [BusySession.take, hjob, Option.elim_none]
    exact ⟨hs ▸ rfl, hidle.hear event, rfl⟩
  cases event with
  | began | opened | changed => exact halone rfl
  | initialized => exact hbegin rfl (workedOff_configuring hnamed s)
  | configurationChanged => exact hbegin rfl (.of_last rfl)
  | closed uri => exact hbegin rfl (workedOff_clearing _ uri)

omit [Addressing U] in
/-- A run does not go by the other runs to come. -/
theorem fire_with (s : Session U) (pending : List (PendingRun U)) (run : PendingRun U) :
    { s with pending }.fire run = ({ (s.fire run).1 with pending }, (s.fire run).2) := by
  have hsame : { s with pending }.look? run = s.look? run := rfl
  cases hlook : s.look? run with
  | none => simp only [fire, hsame, hlook]
  | some seen =>
    rw [fire_of_look? hlook, fire_of_look? (hsame.trans hlook)]
    have hkeep : ({ s with pending }.indexSeen run.uri seen).keep run.uri seen =
        { (s.indexSeen run.uri seen).keep run.uri seen with pending } := by
      cases hd : s.documents.get? run.uri <;> simp [keep, indexSeen, putDocument, hd]
    rw [hkeep]

omit [Addressing U] in
/-- A run leaves the time. -/
@[simp] theorem now_fire (s : Session U) (run : PendingRun U) : (s.fire run).1.now = s.now := by
  cases hlook : s.look? run with
  | none => simp only [fire, hlook]
  | some seen =>
    rw [fire_of_look? hlook, keep_eq]
    rfl

/-- A run that is due and is made without a break is a course. -/
theorem comesTo_fire {place : Nat} {run : PendingRun U} (hplace : s.pending[place]? = some run)
    (hdue : run.due ≤ s.now) :
    ComesTo closed s { (s.fire run).1 with pending := s.pending.eraseIdx place }
      (s.fire run).2 := by
  have htake {b : BusySession U} (hs : b.session = s) : b.take (.wake place) =
      (s.look? run).elim { b with session := { s with pending := s.pending.eraseIdx place } }
        fun seen => { b with session := { s with pending := s.pending.eraseIdx place } }.begin
          (.computing run seen) := by
    subst hs
    simp only [BusySession.take, hplace, hdue, if_true]
  cases hlook : s.look? run with
  | none =>
    refine .of_step (.wake place) (fun _ heq => by cases heq) fun b hs hidle => ?_
    rw [htake hs, hlook]
    simp only [fire, hlook]
    exact ⟨rfl, hidle, (List.append_nil b.told).symm⟩
  | some seen =>
    have hworked : WorkedOff default { s with pending := s.pending.eraseIdx place }
        (.computing run seen) _ _ := workedOff_computing _ hlook
    rw [fire_with] at hworked
    have hcomes : ComesTo closed s _ ([] ++ (s.fire run).2) :=
      hworked.comesTo (.wake place) (fun _ heq => by cases heq) fun b hs hidle =>
        ⟨{ b with session := { s with pending := s.pending.eraseIdx place } },
          by rw [htake hs, hlook, Option.elim_some], rfl, hidle, (List.append_nil b.told).symm⟩
    exact hcomes

/-- Runs that are due and are made one after the other are a course. -/
theorem comesTo_fireAll {runs : List (PendingRun U)}
    (h : runs.Perm (s.pending.filter (·.due ≤ s.now))) :
    ComesTo closed s ({ s with pending := s.pending.filter (s.now < ·.due) }.fireAll runs).1
      ({ s with pending := s.pending.filter (s.now < ·.due) }.fireAll runs).2 := by
  induction runs generalizing s with
  | nil =>
    have hlate : s.pending.filter (s.now < ·.due) = s.pending := by
      refine List.filter_eq_self.mpr fun run hrun => ?_
      have hnot := List.filter_eq_nil_iff.mp h.symm.eq_nil run hrun
      simpa using hnot
    rw [hlate]
    exact .refl s
  | cons run runs ih =>
    obtain ⟨hrun, hdue⟩ := List.mem_filter.mp (h.mem_iff.mp List.mem_cons_self)
    have hdue : run.due ≤ s.now := of_decide_eq_true hdue
    obtain ⟨front, behind, heq⟩ := List.append_of_mem hrun
    have hplace : s.pending[front.length]? = some run := by simp [heq]
    have herase : s.pending.eraseIdx front.length = front ++ behind := by
      simp [heq, List.eraseIdx_append_of_length_le]
    have hlate : s.pending.filter (s.now < ·.due) = (front ++ behind).filter (s.now < ·.due) := by
      simp [heq, hdue]
    have hrest : runs.Perm ((front ++ behind).filter (·.due ≤ s.now)) := by
      rw [heq, List.filter_append, List.filter_cons_of_pos (by simpa using hdue)] at h
      rw [List.filter_append]
      exact (h.trans List.perm_middle).cons_inv
    have hfirst : ComesTo closed s _ _ := comesTo_fire hplace hdue
    have hmore := ih (s := { (s.fire run).1 with pending := front ++ behind }) (by simpa using hrest)
    rw [herase] at hfirst
    have hall := hfirst.trans hmore
    have hfireAll : { s with pending := s.pending.filter (s.now < ·.due) }.fireAll (run :: runs) =
        (({ (s.fire run).1 with pending := s.pending.filter (s.now < ·.due) }.fireAll runs).1,
          (s.fire run).2 ++
            ({ (s.fire run).1 with
              pending := s.pending.filter (s.now < ·.due) }.fireAll runs).2) := by
      rw [fireAll, fire_with]
    rw [hfireAll, hlate]
    simpa using hall

/-- Waiting is a course. -/
theorem comesTo_wait (s : Session U) (milliseconds : Nat) :
    ComesTo closed s (s.wait milliseconds).1 (s.wait milliseconds).2 := by
  have hpass : ComesTo closed s { s with now := s.now + milliseconds } [] :=
    .of_step (.pass milliseconds) (fun _ heq => by cases heq) fun b hs hidle =>
      ⟨hs ▸ rfl, hidle, (List.append_nil b.told).symm⟩
  exact hpass.trans (comesTo_fireAll (s := { s with now := s.now + milliseconds })
    (List.mergeSort_perm _ _))

/-- A request that is answered without a break is a course. -/
theorem comesTo_answer (s : Session U) (r : Request U) :
    ComesTo closed s (s.answer r).2 [] := by
  cases huri : r.uri? with
  | none => simpa [answer, huri] using .refl s
  | some uri =>
    cases hd : s.documents.get? uri with
    | none => simpa [answer, huri, current?, hd] using .refl s
    | some d =>
      have hanswer : (s.answer r).2 = s.putDocument uri (d.store d.snapshot d.current) := by
        simp [answer, huri, current?, hd]
      rw [hanswer]
      cases hparsed : d.parsed with
      | some p =>
        -- The tree is there already, and storing it again changes nothing.
        have hstored : d.store d.snapshot d.current = d := by
          obtain ⟨content, version, parsed, edits, settled⟩ := d
          cases hparsed
          simp [Document.store, Document.matchesSnapshot, Document.snapshot, Document.current]
        have hsame : s.putDocument uri d = s := by
          rw [putDocument, Dictionary.put_of_get? hd]
        rw [hstored, hsame]
        exact .refl s
      | none =>
        have hread : s.keep uri d.snapshot = s.putDocument uri (d.store d.snapshot d.current) := by
          simp [keep, hd, Document.current, hparsed, Document.snapshot]
        rw [← hread]
        have hworked : WorkedOff default s (.answering uri d.snapshot) _ _ :=
          workedOff_answering s uri d.snapshot
        have hcomes : ComesTo closed s _ ([] ++ []) :=
          hworked.comesTo (.look uri) (fun _ heq => by cases heq) fun b hs hidle =>
            ⟨b, by subst hs; simp [BusySession.take, snapshot?, hd], hs, hidle,
              (List.append_nil b.told).symm⟩
        exact hcomes

/-! ## Sessions that are used without disturbance -/

/-- The sessions that come about when everything is through before something else begins, and
documents are closed at some addresses only; with all that they told the editor. -/
inductive UsedAlone (closed : U → Prop) : Session U → List (Announcement U) → Prop
  | start : UsedAlone closed .start []
  | handle {s : Session U} {told : List (Announcement U)} {around : Surroundings}
      (h : UsedAlone closed s told) (hnamed : around.files.WellNamed) (event : Event U)
      (hclosed : ∀ uri, event = .closed uri → closed uri) :
      UsedAlone closed (s.handle around event).1 (told ++ (s.handle around event).2)
  | wait {s : Session U} {told : List (Announcement U)} (h : UsedAlone closed s told)
      (milliseconds : Nat) :
      UsedAlone closed (s.wait milliseconds).1 (told ++ (s.wait milliseconds).2)
  | answer {s : Session U} {told : List (Announcement U)} (h : UsedAlone closed s told)
      (r : Request U) : UsedAlone closed (s.answer r).2 told

/-- A session that is used alone is one that a busy session can come to undisturbed, with no job left
and the same told. -/
theorem UsedAlone.exists_course (h : s.UsedAlone closed told) : ∃ steps : List (BusyStep U),
    BusySession.start.Undisturbed steps ∧ BusySession.ClosesOnly closed steps ∧
      (BusySession.start.takeAll steps).session = s ∧
      (BusySession.start.takeAll steps).IsIdle ∧ (BusySession.start.takeAll steps).told = told := by
  have hcourse : ComesTo closed .start s told := by
    induction h with
    | start => exact .refl _
    | handle _ hnamed event hclosed ih => exact ih.trans (comesTo_handle hnamed _ event hclosed)
    | wait _ milliseconds ih => exact ih.trans (comesTo_wait _ milliseconds)
    | @answer s told _ r ih =>
      have hanswered := ih.trans (comesTo_answer s r)
      rwa [List.append_nil] at hanswered
  exact hcourse .start rfl fun j hj => absurd hj List.not_mem_nil

/-- A tree that is stored with an open document is that of its text. -/
theorem UsedAlone.parsed_cases (h : s.UsedAlone closed told) {d : Document}
    (hopen : s.documents.get? uri = some d) :
    d.parsed = none ∨ d.parsed = some (.ofText d.content) := by
  obtain ⟨steps, hundisturbed, -, rfl, -⟩ := h.exists_course
  exact hundisturbed.faithful.parsed_cases hopen

/-- When no run is to come, the index holds of an open document what its text declares. -/
theorem UsedAlone.documents_indexed (h : s.UsedAlone Addressing.IsCanonical told)
    (hpending : s.pending = []) {d : Document} (hopen : s.documents.get? uri = some d) :
    s.index.HoldsOf uri d.content := by
  obtain ⟨steps, hundisturbed, hclosed, rfl, hidle, -⟩ := h.exists_course
  have hrest : (BusySession.start.takeAll steps).AtRest := ⟨hpending, hidle⟩
  exact hundisturbed.documents_indexed hclosed (hrest.noRunFor uri) hopen

/-- When no run is to come, the editor was told last of an open document what is to be said of its
text, by some settings, and of a document that is not open, if anything, that it was closed. -/
theorem UsedAlone.last_told (h : s.UsedAlone closed told) (hpending : s.pending = []) (uri : U) :
    (∀ d, s.documents.get? uri = some d → ∃ settings, lastPublication? uri told =
      some ⟨some d.version, d.content, diagnosticsOf settings (.ofText d.content)⟩) ∧
    (s.documents.get? uri = none → ∀ p, lastPublication? uri told = some p → p = .cleared) := by
  obtain ⟨steps, hundisturbed, -, rfl, hidle, rfl⟩ := h.exists_course
  have hrest : (BusySession.start.takeAll steps).AtRest := ⟨hpending, hidle⟩
  have htold := hundisturbed.told uri
  refine ⟨fun d hopen => ?_, fun hnone p hp => ?_⟩
  · obtain ⟨settings, hlast, -⟩ := htold.last_of_open (hrest.noRunFor uri) hopen
    exact ⟨settings, hlast⟩
  · refine htold.last_of_closed (fun j hj hjob => ?_) hnone hp
    cases (hidle j hj).symm.trans hjob

end Session

end CssWorkbench
