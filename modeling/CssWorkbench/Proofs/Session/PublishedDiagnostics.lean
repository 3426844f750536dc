import CssWorkbench.Proofs.Session.Steps
import CssWorkbench.Url.File

/-!
# What the editor was told last

When no run for a document is left, the last that the editor was told of it is about its text and its
version, and of a closed document, that there is nothing to report. What a run computed is published
if the document still has the version and the number of edits that the run saw. A document that was
closed and opened anew may have both with another text; as long as no run publishes for a document
that it did not see, the last word is the right one.

A run goes by the settings that were in force when it was scheduled. Other settings that come into
force before it is made do not reach it, and what it publishes then stays the last word. Where no
change of the settings leaves such a run behind, the last word is by the settings in force.
-/

namespace CssWorkbench

open Dictionary

variable {U : Type} {uri : U} {snap : Snapshot}

/-- A job that is at a run for a document which it saw under its version. -/
def Job.IsRunFor (snap : Snapshot) (job : Job U) : Prop :=
  ∃ run seen, job.run? = some (run, seen) ∧ seen.version = snap.version

/-- A run saw the document that it is for. -/
theorem Job.seen?_of_run? {job : Job U} {run : PendingRun U} {seen : Snapshot}
    (h : job.run? = some (run, seen)) : job.seen? = some (run.uri, seen) := by
  cases job <;> cases h <;> rfl

/-- A run tells of its document what it computed, and only at its end. -/
theorem Job.tells?_of_run? {job : Job U} {run : PendingRun U} {seen : Snapshot}
    (h : job.run? = some (run, seen)) :
    job.tells? = none ∨ job.tells? = some (run.uri, seen.publication run.settings) := by
  cases job <;> cases h
  · exact .inl rfl
  · exact .inl rfl
  · exact .inr rfl

variable [DecidableEq U] [Addressing U]

namespace Session

variable {s : Session U} {job : Job U}

/-- A job goes on with the run that it is at, or it is at none. -/
theorem run?_advance (s : Session U) (around : Surroundings) (job : Job U) :
    (s.advance around job).2.1.run? = none ∨ (s.advance around job).2.1.run? = job.run? := by
  cases job with
  | configuring initial =>
    cases initial with
    | true =>
      simp only [advance]
      split <;> exact .inl rfl
    | false => exact .inl rfl
  | searching roots search indexed progress =>
    simp only [advance, searchOn]
    split <;> split <;> exact .inl rfl
  | restoring u =>
    simp only [advance, restore]
    split <;> exact .inl rfl
  | reading path =>
    simp only [advance]
    split <;> exact .inl rfl
  | checking run seen =>
    simp only [advance]
    split
    · exact .inr rfl
    · exact .inl rfl
  | computing run seen => exact .inr rfl
  | showing | clearing | indexing | publishing | answering | finished => exact .inl rfl

/-- A run whose document still has the version and the edits that it saw goes on until it publishes
what it computed. -/
theorem run?_advance_of_stillShows (around : Surroundings) {run : PendingRun U} {seen : Snapshot}
    (h : job.run? = some (run, seen)) (hshows : s.stillShows run.uri seen = true)
    (htells : job.tells? = none) : (s.advance around job).2.1.run? = some (run, seen) := by
  cases job with
  | computing => exact h
  | checking run' seen' =>
    cases h
    simp only [advance, hshows, if_true]
    rfl
  | publishing => cases htells
  | _ => cases h

end Session

namespace BusySession

variable {b : BusySession U} {step : BusyStep U} {steps : List (BusyStep U)} {j : Underway U}
  {place : Nat} {around : Surroundings}

/-- What an open document looks like will be published: the run is to come, or has seen it so. -/
def PublishesSoon (b : BusySession U) (uri : U) (snap : Snapshot) : Prop :=
  b.Awaits Job.IsRunFor uri snap

/-- What a job tells of a document is still so: the run saw the open document as it is, or a closed
one is said to be closed. -/
def TellsTruly (b : BusySession U) (uri : U) (j : Underway U) : Prop :=
  match b.session.snapshot? uri with
  | some snap => j.job.IsRunFor snap ∧ j.Saw uri snap
  | none => j.job = .clearing uri

/-- The editor will be told of a document what is so. -/
def TellsSoon (b : BusySession U) (uri : U) : Prop :=
  match b.session.snapshot? uri with
  | some snap => b.PublishesSoon uri snap
  | none => ∃ j ∈ b.jobs, j.job = .clearing uri

/-- A step tells of a document what is no longer so, and the editor will not be told of it again. -/
def TellsLate (b : BusySession U) (uri : U) : BusyStep U → Prop
  | .advance place around => ∃ j p, b.jobs[place]? = some j ∧ j.job.tells? = some (uri, p) ∧
      ¬ b.TellsTruly uri j ∧ ¬ (b.take (.advance place around)).TellsSoon uri
  | _ => False

/-- No step tells of a document what is no longer so behind all else that is to be told of it. -/
def NeverTellsLate (uri : U) (b : BusySession U) (steps : List (BusyStep U)) : Prop :=
  Throughout (fun b step => ¬ b.TellsLate uri step) b steps

/-- All runs for a document, to come and under way, go by some settings. -/
def RunsBy (b : BusySession U) (uri : U) (settings : Settings) : Prop :=
  (∀ run ∈ b.session.pending, run.uri = uri → run.settings = settings) ∧
    ∀ j ∈ b.jobs, ∀ run seen, j.job.run? = some (run, seen) → run.uri = uri →
      run.settings = settings

/-- A step that takes over a configuration finds no run for a document by other settings, and no open
document that will not be looked at again. -/
def OutdatesNone (b : BusySession U) (uri : U) : BusyStep U → Prop
  | .advance place around => ∀ j, b.jobs[place]? = some j →
      (j.job = .configuring false → b.RunsBy uri (b.session.configure around).settings) ∧
      (j.job = .configuring true →
        (b.session.configure around).settings = b.session.settings ∨
          b.session.snapshot? uri = none ∧ b.NoRunFor uri)
  | _ => True

/-- No step leaves a run for a document behind that goes by settings no longer in force. -/
def NeverOutdates (uri : U) (b : BusySession U) (steps : List (BusyStep U)) : Prop :=
  Throughout (fun b step => b.OutdatesNone uri step) b steps

/-! ## The settings of runs -/

/-- Steps that take no job further leave the settings. -/
theorem settings_take (hstep : ∀ place around, step ≠ .advance place around) :
    (b.take step).session.settings = b.session.settings := by
  cases step with
  | event event =>
    rw [take_event]
    exact b.session.settings_hear event
  | pass milliseconds => rfl
  | wake place =>
    rcases b.take_wake_cases place with heq | ⟨run, jobs, -, heq, -⟩ <;> rw [heq]
  | look u =>
    rcases b.take_look_cases u with heq | ⟨seen, -, heq⟩
    · rw [heq]
    · rw [heq]
      rfl
  | advance place around => exact absurd rfl (hstep place around)

/-- Steps that take no job further tell the editor of no document. -/
theorem lastPublication?_take (hstep : ∀ place around, step ≠ .advance place around) :
    lastPublication? uri (b.take step).told = lastPublication? uri b.told := by
  cases step with
  | event event =>
    rw [take_event, lastPublication?_append, lastPublication?_announcements, Option.none_or]
  | pass milliseconds => rfl
  | wake place =>
    rcases b.take_wake_cases place with heq | ⟨run, jobs, -, heq, -⟩ <;> rw [heq]
  | look u =>
    rcases b.take_look_cases u with heq | ⟨seen, -, heq⟩
    · rw [heq]
    · rw [heq]
      rfl
  | advance place around => exact absurd rfl (hstep place around)

/-- A run that is scheduled goes by the settings in force, and one that begins by those that it was
scheduled by. -/
theorem RunsBy.take (h : b.RunsBy uri b.session.settings)
    (hstep : ∀ place around, step ≠ .advance place around) :
    (b.take step).RunsBy uri b.session.settings := by
  obtain ⟨hpending, hjobs⟩ := h
  cases step with
  | event event =>
    rw [take_event]
    refine ⟨fun run hrun hu => ?_, fun j' hj' run seen hrun hu => ?_⟩
    · rcases Session.mem_pending_hear hrun with hold | hnew
      · exact hpending run hold hu
      · exact hnew
    · rcases List.mem_append.mp hj' with hj' | hj'
      · obtain ⟨j, hj, rfl⟩ := List.mem_map.mp hj'
        rw [Underway.job_after] at hrun
        exact hjobs j hj run seen hrun hu
      · obtain ⟨job, hjob, rfl⟩ := List.mem_map.mp hj'
        cases event <;> cases Option.mem_toList.mp hjob <;> cases hrun
  | pass milliseconds => exact ⟨hpending, hjobs⟩
  | wake place =>
    rcases b.take_wake_cases place with heq | ⟨run, jobs, hplace, heq, hlook⟩
    · rw [heq]
      exact ⟨hpending, hjobs⟩
    · rw [heq]
      refine ⟨fun other hother => hpending other (List.mem_of_mem_eraseIdx hother),
        fun j hj other seen hother hu => ?_⟩
      rcases List.mem_append.mp hj with hj | hj
      · exact hjobs j hj other seen hother hu
      · rcases hlook with ⟨rfl, -⟩ | ⟨seen', rfl, -⟩
        · cases hj
        · obtain rfl := List.mem_singleton.mp hj
          cases hother
          exact hpending run (List.mem_of_getElem? hplace) hu
  | look u =>
    rcases b.take_look_cases u with heq | ⟨seen, -, heq⟩
    · rw [heq]
      exact ⟨hpending, hjobs⟩
    · rw [heq]
      refine ⟨hpending, fun j hj other seen' hother hu => ?_⟩
      rcases List.mem_append.mp hj with hj | hj
      · exact hjobs j hj other seen' hother hu
      · obtain rfl := List.mem_singleton.mp hj
        cases hother
  | advance place around => exact absurd rfl (hstep place around)

/-- A stage after which the settings are in force by which all runs go that were left, leaves only
runs by these. -/
theorem RunsBy.stage (h : b.RunsBy uri (b.stage place around j).session.settings)
    (hj : b.jobs[place]? = some j) :
    (b.stage place around j).RunsBy uri (b.stage place around j).session.settings := by
  obtain ⟨hpending, hjobs⟩ := h
  refine ⟨fun run hrun hu => ?_, fun k hk run seen hrun hu => ?_⟩
  · by_cases hconfigures : ∃ initial, j.job = .configuring initial
    · obtain ⟨initial, hjob⟩ := hconfigures
      have hadvance := b.session.advance_configuring around initial
      simp only [BusySession.stage, hjob] at hrun ⊢
      rw [hadvance.2] at hrun
      rcases List.mem_append.mp hrun with hold | hnew
      · simpa only [BusySession.stage, hjob] using hpending run hold hu
      · rw [hadvance.1]
        split at hnew
        · cases hnew
        · obtain ⟨p, -, rfl⟩ := List.mem_map.mp hnew
          rfl
    · have hsame := b.session.settings_pending_advance around fun initial heq =>
        hconfigures ⟨initial, heq⟩
      exact hpending run (hsame.2 ▸ hrun) hu
  · rcases List.mem_or_eq_of_mem_set hk with hk | rfl
    · exact hjobs k hk run seen hrun hu
    · rcases b.session.run?_advance around j.job with hnone | hsame
      · cases hnone.symm.trans hrun
      · exact hjobs j (List.mem_of_getElem? hj) run seen (hsame ▸ hrun) hu

/-- A step that outdates no run leaves all runs by the settings in force. -/
theorem RunsBy.take_inForce (h : b.RunsBy uri b.session.settings) (hstep : b.OutdatesNone uri step) :
    (b.take step).RunsBy uri (b.take step).session.settings := by
  cases step with
  | advance place around =>
    rcases b.take_advance_cases place around with heq | ⟨j, hj, heq⟩
    · rwa [heq]
    · rw [heq]
      refine RunsBy.stage ?_ hj
      by_cases hconfigures : ∃ initial, j.job = .configuring initial
      · obtain ⟨initial, hjob⟩ := hconfigures
        have hsettings : (b.stage place around j).session.settings =
            (b.session.configure around).settings := by
          simp only [BusySession.stage, hjob]
          exact (b.session.advance_configuring around initial).1
        rw [hsettings]
        cases initial with
        | false => exact (hstep j hj).1 hjob
        | true =>
          rcases (hstep j hj).2 hjob with hsame | ⟨-, hpending, hjobs⟩
          · rwa [hsame]
          · exact ⟨fun run hrun hu => absurd hu (hpending run hrun),
              fun k hk run seen hrun hu => absurd hu (hjobs k hk run seen hrun)⟩
      · have hsame := b.session.settings_pending_advance around fun initial heq =>
          hconfigures ⟨initial, heq⟩
        rw [BusySession.stage, hsame.1]
        exact h
  | event | pass | wake | look =>
    rw [settings_take (by simp)]
    exact h.take (by simp)

/-! ## Open documents -/

/-- What an open document looks like will be published, or it was published last, and if all is calm,
by the settings in force. -/
def Publishes (calm : Prop) (b : BusySession U) (uri : U) : Prop :=
  ∀ snap, b.session.snapshot? uri = some snap → b.PublishesSoon uri snap ∨
    ∃ settings, lastPublication? uri b.told = some (snap.publication settings) ∧
      (calm → settings = b.session.settings)

variable {calm : Prop}

/-- Only a stage makes that a document will not be published any more. -/
theorem publishesSoon_take {snap : Snapshot} (hstep : ∀ place around, step ≠ .advance place around)
    (hsnap : (b.take step).session.snapshot? uri = some snap) :
    (b.take step).PublishesSoon uri snap ∨
      b.session.snapshot? uri = some snap ∧ ¬ b.PublishesSoon uri snap :=
  awaits_take (fun run seen => ⟨run, seen, rfl, rfl⟩) hstep hsnap

/-- What the editor was told last of a document after a stage. -/
theorem lastPublication?_stage (b : BusySession U) (place : Nat) (around : Surroundings)
    (j : Underway U) (uri : U) : lastPublication? uri (b.stage place around j).told =
      (match j.job.tells? with
        | some (u, p) => if u = uri then some p else none
        | none => none).or (lastPublication? uri b.told) :=
  (lastPublication?_append uri b.told _).trans
    (congrArg (Option.or · _) (Session.lastPublication?_advance b.session around j.job uri))

/-- A job that tells nothing of a document leaves the last word on it. -/
theorem lastPublication?_stage_of_none (h : ∀ p, j.job.tells? ≠ some (uri, p)) :
    lastPublication? uri (b.stage place around j).told = lastPublication? uri b.told := by
  rw [lastPublication?_stage]
  split
  · next u p heq =>
    rw [if_neg fun hu : u = uri => h p (hu ▸ heq), Option.none_or]
  · rfl

/-- A run that saw its document as it is comes to its next stage, unless it is about to publish. -/
theorem publishesSoon_stage (hj : b.jobs[place]? = some j)
    (hsnap : b.session.snapshot? uri = some snap) (hrun : j.job.IsRunFor snap)
    (hsaw : j.Saw uri snap) (htells : ∀ p, j.job.tells? ≠ some (uri, p)) (around : Surroundings) :
    (b.stage place around j).PublishesSoon uri snap := by
  obtain ⟨run, seen, hrun, hversion⟩ := hrun
  obtain ⟨hkept, seen', hseen, hedits⟩ := hsaw
  cases (Job.seen?_of_run? hrun).symm.trans hseen
  have hshows : b.session.stillShows run.uri seen = true :=
    Session.stillShows_iff.mpr ⟨snap, hsnap, hversion.symm, hedits.symm⟩
  have hnext := Session.run?_advance_of_stillShows around hrun hshows
    ((Job.tells?_of_run? hrun).resolve_right (htells _))
  exact .inr ⟨_, mem_jobs_stage_self hj around, ⟨run, seen, hnext, hversion⟩, hkept, seen,
    Job.seen?_of_run? hnext, hedits⟩

/-- A run that saw its document as it is publishes that. -/
theorem lastPublication?_stage_of_saw (around : Surroundings) (htracks : b.Tracks)
    (hj : b.jobs[place]? = some j) (hsnap : b.session.snapshot? uri = some snap)
    (hrun : j.job.IsRunFor snap) (hsaw : j.Saw uri snap) {p : Publication}
    (htells : j.job.tells? = some (uri, p)) :
    ∃ run seen, j.job.run? = some (run, seen) ∧ run.uri = uri ∧
      lastPublication? uri (b.stage place around j).told =
        some (snap.publication run.settings) := by
  obtain ⟨run, seen, hrun, hversion⟩ := hrun
  obtain ⟨hkept, seen', hseen, hedits⟩ := hsaw
  cases (Job.seen?_of_run? hrun).symm.trans hseen
  have htext := htracks.content_eq (List.mem_of_getElem? hj) hsnap hkept hseen hedits
  refine ⟨run, seen, hrun, rfl, ?_⟩
  rcases Job.tells?_of_run? hrun with hnone | hsome
  · cases hnone.symm.trans htells
  · rw [lastPublication?_stage, hsome]
    simp [Snapshot.publication, hversion, htext]

/-- Where a configuration is taken over while the session goes on, every open document is looked at
again. -/
theorem publishesSoon_configuring (hsnap : b.session.snapshot? uri = some snap)
    (hjob : j.job = .configuring false) :
    (b.stage place around j).PublishesSoon uri snap := by
  obtain ⟨d, hd, rfl⟩ := Option.map_eq_some_iff.mp hsnap
  refine .inl ⟨⟨uri, d.version, b.session.now, (b.session.configure around).settings⟩, ?_, rfl, rfl⟩
  simp only [stage, hjob]
  rw [(b.session.advance_configuring around false).2]
  exact List.mem_append_right _ (List.mem_map.mpr ⟨(uri, d), mem_of_get? hd, rfl⟩)

/-- A stage that tells of an open document tells what is so, or what is so is still to be told. -/
theorem Publishes.stage (h : b.Publishes calm uri) (htracks : b.Tracks)
    (hruns : calm → b.RunsBy uri b.session.settings) (hj : b.jobs[place]? = some j)
    (hlate : ¬ b.TellsLate uri (.advance place around))
    (heq : b.take (.advance place around) = b.stage place around j) :
    (b.stage place around j).Publishes (calm ∧ b.OutdatesNone uri (.advance place around)) uri := by
  intro snap hsnap
  replace hsnap : b.session.snapshot? uri = some snap :=
    (b.session.snapshot?_advance around j.job uri).symm.trans hsnap
  by_cases hconfigures : j.job = .configuring false
  · exact .inl (publishesSoon_configuring hsnap hconfigures)
  have hforce : b.OutdatesNone uri (.advance place around) →
      b.session.settings = (b.stage place around j).session.settings := by
    intro hnone
    by_cases hinitial : j.job = .configuring true
    · simp only [BusySession.stage, hinitial]
      rw [(b.session.advance_configuring around true).1]
      rcases (hnone j hj).2 hinitial with hsame | ⟨hclosed, -⟩
      · exact hsame.symm
      · cases hclosed.symm.trans hsnap
    · refine (b.session.settings_pending_advance around fun initial heq => ?_).1.symm
      cases initial
      · exact hconfigures heq
      · exact hinitial heq
  by_cases htells : ∃ p, j.job.tells? = some (uri, p)
  · obtain ⟨p, htells⟩ := htells
    by_cases hsaw : j.job.IsRunFor snap ∧ j.Saw uri snap
    · obtain ⟨run, seen, hrun, hu, hlast⟩ :=
        lastPublication?_stage_of_saw around htracks hj hsnap hsaw.1 hsaw.2 htells
      refine .inr ⟨run.settings, hlast, fun hcalm => ?_⟩
      rw [← hforce hcalm.2]
      exact (hruns hcalm.1).2 j (List.mem_of_getElem? hj) run seen hrun hu
    · left
      by_contra hsoon
      refine hlate ⟨j, p, hj, htells, ?_, ?_⟩
      · rwa [TellsTruly, hsnap]
      · rw [TellsSoon, heq]
        simp only [BusySession.stage, Session.snapshot?_advance, hsnap]
        exact hsoon
  · have hquiet : ∀ p, j.job.tells? ≠ some (uri, p) := fun p hp => htells ⟨p, hp⟩
    rcases h snap hsnap with hsoon | ⟨settings, hlast, hcalm⟩
    · left
      rcases hsoon.stage hj around with hstays | ⟨hrun, hsaw⟩
      · exact hstays
      · exact publishesSoon_stage hj hsnap hrun hsaw hquiet around
    · exact .inr ⟨settings, (lastPublication?_stage_of_none hquiet).trans hlast,
        fun hboth => (hcalm hboth.1).trans (hforce hboth.2)⟩

/-! ## Closed documents -/

/-- The editor will be told that a document was closed, or nothing else was said of it last. -/
def Clears (b : BusySession U) (uri : U) : Prop :=
  b.session.snapshot? uri = none → (∃ j ∈ b.jobs, j.job = .clearing uri) ∨
    ∀ p, lastPublication? uri b.told = some p → p = .cleared

/-- Steps that take no job further leave every job at its stage. -/
theorem exists_job_take (hj : j ∈ b.jobs) (hstep : ∀ place around, step ≠ .advance place around) :
    ∃ k ∈ (b.take step).jobs, k.job = j.job := by
  cases step with
  | event event =>
    rw [take_event]
    exact ⟨_, List.mem_append_left _ (List.mem_map_of_mem hj), j.job_after event⟩
  | pass milliseconds => exact ⟨j, hj, rfl⟩
  | wake place =>
    rcases b.take_wake_cases place with heq | ⟨run, jobs, -, heq, -⟩
    · exact ⟨j, by rwa [heq], rfl⟩
    · exact ⟨j, by rw [heq]; exact List.mem_append_left _ hj, rfl⟩
  | look u =>
    rcases b.take_look_cases u with heq | ⟨seen, -, heq⟩
    · exact ⟨j, by rwa [heq], rfl⟩
    · exact ⟨j, by rw [heq]; exact List.mem_append_left _ hj, rfl⟩
  | advance place around => exact absurd rfl (hstep place around)

/-- A closing leaves the editor to be told of it. -/
theorem exists_clearing (b : BusySession U) (uri : U) :
    ∃ j ∈ (b.take (.event (.closed uri))).jobs, j.job = .clearing uri := by
  rw [take_event]
  exact ⟨_, List.mem_append_right _ List.mem_cons_self, rfl⟩

/-- Only its closing makes that a document is no longer open. -/
theorem snapshot?_take_eq_none (hsnap : (b.take step).session.snapshot? uri = none)
    (hstep : ∀ place around, step ≠ .advance place around) (hclosed : step ≠ .event (.closed uri)) :
    b.session.snapshot? uri = none := by
  cases step with
  | event event =>
    rw [take_event] at hsnap
    exact Session.snapshot?_eq_none_of_hear hsnap fun heq => hclosed (heq ▸ rfl)
  | pass milliseconds => exact hsnap
  | wake place =>
    rcases b.take_wake_cases place with heq | ⟨run, jobs, -, heq, -⟩ <;> rwa [heq] at hsnap
  | look u =>
    rcases b.take_look_cases u with heq | ⟨seen, -, heq⟩ <;> rwa [heq] at hsnap
  | advance place around => exact absurd rfl (hstep place around)

/-- Steps that take no job further leave what is known of a closed document, or leave the editor to
be told of it. -/
theorem Clears.take (h : b.Clears uri) (hstep : ∀ place around, step ≠ .advance place around) :
    (b.take step).Clears uri := by
  intro hsnap
  rw [lastPublication?_take hstep]
  by_cases hclosed : step = .event (.closed uri)
  · exact .inl (hclosed ▸ b.exists_clearing uri)
  · refine (h (snapshot?_take_eq_none hsnap hstep hclosed)).imp_left fun ⟨j, hj, hjob⟩ => ?_
    obtain ⟨k, hk, hsame⟩ := exists_job_take hj hstep
    exact ⟨k, hk, hsame.trans hjob⟩

/-- A stage that tells of a closed document tells that it was closed, or that is still to be
told. -/
theorem Clears.stage (h : b.Clears uri) (hj : b.jobs[place]? = some j)
    (hlate : ¬ b.TellsLate uri (.advance place around))
    (heq : b.take (.advance place around) = b.stage place around j) :
    (b.stage place around j).Clears uri := by
  intro hsnap
  have hbefore : b.session.snapshot? uri = none :=
    (b.session.snapshot?_advance around j.job uri).symm.trans hsnap
  by_cases htells : ∃ p, j.job.tells? = some (uri, p)
  · obtain ⟨p, htells⟩ := htells
    by_cases hjob : j.job = .clearing uri
    · right
      rw [lastPublication?_stage, hjob]
      simp [Job.tells?]
    · left
      by_contra hsoon
      refine hlate ⟨j, p, hj, htells, ?_, ?_⟩
      · rwa [TellsTruly, hbefore]
      · rw [heq, TellsSoon, hsnap]
        exact hsoon
  · have hquiet : ∀ p, j.job.tells? ≠ some (uri, p) := fun p hp => htells ⟨p, hp⟩
    rw [lastPublication?_stage_of_none hquiet]
    rcases h hbefore with ⟨k, hk, hjob⟩ | hlast
    · left
      rcases b.mem_jobs_stage hk place around j with hself | hstays
      · cases hj.symm.trans hself
        exact absurd (hjob ▸ rfl) (hquiet .cleared)
      · exact ⟨k, hstays, hjob⟩
    · exact .inr hlast

/-- The editor was told of a document, or will be told that it was closed. -/
def Tells (b : BusySession U) (uri : U) : Prop :=
  (∃ j ∈ b.jobs, j.job = .clearing uri) ∨ ∃ p, lastPublication? uri b.told = some p

/-- What was told stays told, and what is to be told is told some time. -/
theorem Tells.take (h : b.Tells uri) (step : BusyStep U) : (b.take step).Tells uri := by
  by_cases hstep : ∀ place around, step ≠ .advance place around
  · refine h.imp (fun ⟨j, hj, hjob⟩ => ?_) fun ⟨p, hp⟩ => ⟨p, (lastPublication?_take hstep).trans hp⟩
    obtain ⟨k, hk, hsame⟩ := exists_job_take hj hstep
    exact ⟨k, hk, hsame.trans hjob⟩
  · push Not at hstep
    obtain ⟨place, around, rfl⟩ := hstep
    rcases b.take_advance_cases place around with heq | ⟨j, hj, heq⟩
    · rwa [heq]
    · rw [heq]
      rcases h with ⟨k, hk, hjob⟩ | ⟨p, hp⟩
      · rcases b.mem_jobs_stage hk place around j with hself | hstays
        · cases hj.symm.trans hself
          refine .inr ⟨.cleared, ?_⟩
          rw [lastPublication?_stage, hjob]
          simp [Job.tells?]
        · exact .inl ⟨k, hstays, hjob⟩
      · right
        rw [lastPublication?_stage, hp]
        exact Option.isSome_iff_exists.mp (by simp)

/-- What is known of a document at any time: jobs saw what they go by, runs go by the settings in
force if all is calm, and the editor knows of it, or will be told. -/
structure Told (calm : Prop) (b : BusySession U) (uri : U) : Prop where
  tracks : b.Tracks
  runs : calm → b.RunsBy uri b.session.settings
  opened : b.Publishes calm uri
  closed : b.Clears uri

omit [Addressing U] in
/-- At the start of a session there is nothing to be known of a document. -/
theorem told_start (uri : U) : Told True start uri where
  tracks := tracks_start
  runs _ := ⟨nofun, nofun⟩
  opened _ h := by cases h
  closed _ := .inr nofun

/-- A step that does not come late keeps up what is known of a document, and calm stays what outdates
no run. -/
theorem Told.take (h : Told calm b uri) (hlate : ¬ b.TellsLate uri step) :
    Told (calm ∧ b.OutdatesNone uri step) (b.take step) uri := by
  refine ⟨h.tracks.take step, fun hcalm => (h.runs hcalm.1).take_inForce hcalm.2, ?_, ?_⟩
  · cases step with
    | advance place around =>
      rcases b.take_advance_cases place around with heq | ⟨j, hj, heq⟩
      · rw [heq]
        exact fun snap hsnap => (h.opened snap hsnap).imp_right fun ⟨settings, hlast, hcalm⟩ =>
          ⟨settings, hlast, fun hboth => hcalm hboth.1⟩
      · rw [heq]
        exact h.opened.stage h.tracks h.runs hj hlate heq
    | event | pass | wake | look =>
      intro snap hsnap
      rw [settings_take (by nofun), lastPublication?_take (by nofun)]
      rcases publishesSoon_take (by nofun) hsnap with hsoon | ⟨hbefore, hnone⟩
      · exact .inl hsoon
      · obtain ⟨settings, hlast, hcalm⟩ := (h.opened snap hbefore).resolve_left hnone
        exact .inr ⟨settings, hlast, fun hboth => hcalm hboth.1⟩
  · cases step with
    | advance place around =>
      rcases b.take_advance_cases place around with heq | ⟨j, hj, heq⟩
      · rw [heq]
        exact h.closed
      · rw [heq]
        exact h.closed.stage hj hlate heq
    | event | pass | wake | look => exact h.closed.take (by nofun)

/-- So does a whole course. -/
theorem Told.takeAll (h : Told calm b uri) (hlate : NeverTellsLate uri b steps) :
    Told (calm ∧ NeverOutdates uri b steps) (b.takeAll steps) uri := by
  induction steps generalizing b calm with
  | nil =>
    simp only [NeverOutdates, Throughout, and_true]
    exact h
  | cons step steps ih =>
    have hrest := ih (h.take hlate.1) hlate.2
    rwa [and_assoc] at hrest

omit [DecidableEq U] [Addressing U] in
/-- Nothing will be published of a document for which no run is left. -/
theorem NoRunFor.not_publishesSoon (h : b.NoRunFor uri) : ¬ b.PublishesSoon uri snap := by
  rintro (⟨run, hrun, hfor⟩ | ⟨j, hj, ⟨run, seen, hrun, -⟩, -, seen', hseen, -⟩)
  · exact h.1 run hrun hfor.1
  · cases (Job.seen?_of_run? hrun).symm.trans hseen
    exact h.2 j hj run seen hrun rfl

omit [Addressing U] in
/-- When no run for an open document is left, it was told last what is to be said of it, and if all is
calm, by the settings in force. -/
theorem Told.last_of_open (h : Told calm b uri) (hidle : b.NoRunFor uri) {d : Document}
    (hd : b.session.documents.get? uri = some d) :
    ∃ settings, lastPublication? uri b.told =
        some ⟨some d.version, d.content, diagnosticsOf settings (.ofText d.content)⟩ ∧
      (calm → settings = b.session.settings) :=
  (h.opened _ (Session.snapshot?_eq_some hd)).resolve_left hidle.not_publishesSoon

omit [Addressing U] in
/-- When it was told that a document was closed, that was told last of it. -/
theorem Told.last_of_closed (h : Told calm b uri) (hcleared : ∀ j ∈ b.jobs, j.job ≠ .clearing uri)
    (hclosed : b.session.documents.get? uri = none) {p : Publication}
    (hlast : lastPublication? uri b.told = some p) : p = ⟨none, "", []⟩ := by
  have hnone : ¬ ∃ j ∈ b.jobs, j.job = .clearing uri := fun ⟨j, hj, hjob⟩ => hcleared j hj hjob
  exact (h.closed (Session.snapshot?_eq_none_iff.mpr hclosed)).resolve_left hnone p hlast

end BusySession

end CssWorkbench
