import CssWorkbench.Proofs.Session.Stages

/-!
# The steps of a busy session

A step hears an event, lets time pass, begins a run or a request, or takes one job a stage further.
Whatever a job saw of a document, the document goes on from there until it is closed or opened anew:
its edits are counted, and as long as none is counted it has the text that was seen. So the version
and the number of edits tell a job that was not outlived whether its text is still good.
-/

namespace CssWorkbench

open Dictionary

/-! ## Documents that go on -/

namespace Document

variable {d : Document} {snap : Snapshot}

/-- The text is the one that was settled last, if any was. -/
def Settled (d : Document) : Prop := ∀ text, d.settled = some text → text = d.content

/-- A document that was never opened has settled on no text. -/
theorem settled_blank : Settled .blank := nofun

/-- A document is settled when it is opened. -/
theorem settled_opened (text : String) (version : Int) : (opened text version).Settled :=
  fun _ h => (Option.some.inj h).symm

/-- Changes leave the text and its tree, or count as one more edit and drop the tree. -/
theorem Settled.change_cases (h : d.Settled) (version : Int) (changes : List TextChange) :
    d.change version changes = { d with version := version } ∨
      ∃ text, d.change version changes = ⟨text, version, none, d.edits + 1, some text⟩ := by
  unfold change
  simp only
  split
  · next hsettled =>
    rw [h _ hsettled]
    exact .inl rfl
  · exact .inr ⟨_, rfl⟩

/-- Changes count as one edit at most. -/
theorem edits_change_le (d : Document) (version : Int) (changes : List TextChange) :
    (d.change version changes).edits ≤ d.edits + 1 := by
  unfold change
  simp only
  split
  · exact Nat.le_succ d.edits
  · exact Nat.le_refl _

/-- Changes settle a document anew. -/
theorem Settled.change (h : d.Settled) (version : Int) (changes : List TextChange) :
    (d.change version changes).Settled := by
  rcases h.change_cases version changes with heq | ⟨text, heq⟩ <;> rw [heq]
  · exact h
  · exact fun _ h => (Option.some.inj h).symm

/-- Storing a tree leaves everything else of a document as it is. -/
theorem store_cases (d : Document) (snap : Snapshot) (p : ParsedText) :
    d.matchesSnapshot snap = true ∧ d.store snap p = { d with parsed := some p } ∨
      d.matchesSnapshot snap = false ∧ d.store snap p = d := by
  unfold store
  split
  · next hmatch => exact .inl ⟨hmatch, rfl⟩
  · next hmatch => exact .inr ⟨by simpa using hmatch, rfl⟩

/-- Storing a tree does not unsettle a document. -/
theorem Settled.store (h : d.Settled) (p : ParsedText) : (d.store snap p).Settled := by
  rcases d.store_cases snap p with ⟨-, heq⟩ | ⟨-, heq⟩ <;> rw [heq] <;> exact h

/-- A document that looked like a snapshot before, and has its text if it counts as many edits. -/
def Follows (d : Document) (snap : Snapshot) : Prop :=
  snap.edits ≤ d.edits ∧ (snap.edits = d.edits → snap.content = d.content)

/-- A document follows what it looks like now. -/
theorem follows_snapshot (d : Document) : d.Follows d.snapshot := ⟨Nat.le_refl _, fun _ => rfl⟩

/-- A document that is changed goes on following what it followed. -/
theorem Follows.change (h : d.Follows snap) (hd : d.Settled) (version : Int)
    (changes : List TextChange) : (d.change version changes).Follows snap := by
  rcases hd.change_cases version changes with heq | ⟨text, heq⟩ <;> rw [heq]
  · exact h
  · exact ⟨Nat.le_succ_of_le h.1, fun hsame => absurd (hsame ▸ h.1) (Nat.not_succ_le_self _)⟩

/-- So does one in which a tree is stored. -/
theorem Follows.store {other : Snapshot} (h : d.Follows snap) (p : ParsedText) :
    (d.store other p).Follows snap := by
  rcases d.store_cases other p with ⟨-, heq⟩ | ⟨-, heq⟩ <;> rw [heq] <;> exact h

/-- A document that follows a snapshot and still looks like it has its text. -/
theorem Follows.content_eq (h : d.Follows snap) (hmatch : d.matchesSnapshot snap = true) :
    snap.content = d.content := by
  simp only [matchesSnapshot, Bool.and_eq_true, decide_eq_true_eq] at hmatch
  exact h.2 hmatch.2.symm

end Document

variable {U : Type} [DecidableEq U] {uri u : U} {d : Document} {snap seen : Snapshot}

/-! ## Jobs under way -/

namespace Underway

variable {j : Underway U} {event : Event U}

/-- An event takes no job to another stage. -/
@[simp] theorem job_after (j : Underway U) (event : Event U) : (j.after event).job = j.job := by
  cases event <;> rfl

/-- A job that an event does not make outlived was not outlived before, and its document was neither
opened nor closed by the event. -/
theorem kept_of_after (h : (j.after event).outlived = false)
    (hseen : j.job.seen? = some (uri, seen)) :
    j.outlived = false ∧ event ≠ .closed uri ∧ ∀ version text, event ≠ .opened uri version text := by
  cases event with
  | began | initialized | configurationChanged | changed => exact ⟨h, nofun, nofun⟩
  | opened u version text | closed u =>
    simp only [after, hseen, Option.any_some, Bool.or_eq_false_iff, decide_eq_false_iff_not] at h
    refine ⟨h.1, fun heq => ?_, fun version text heq => ?_⟩
    all_goals cases heq
    exact h.2 rfl

/-- A job goes on as it was when its document is neither opened nor closed. -/
theorem after_eq_of_ne (hopened : ∀ version text, event ≠ .opened uri version text)
    (hclosed : event ≠ .closed uri) (hseen : j.job.seen? = some (uri, seen)) :
    j.after event = j := by
  cases event with
  | began | initialized | configurationChanged | changed => rfl
  | opened u version text =>
    have hu : uri ≠ u := fun heq => hopened version text (heq ▸ rfl)
    simp [after, hseen, hu]
  | closed u =>
    have hu : uri ≠ u := fun heq => hclosed (heq ▸ rfl)
    simp [after, hseen, hu]

end Underway

/-- A job looked at the document at an address, and that is still the same one and counts as many
edits. -/
def Underway.Saw (j : Underway U) (uri : U) (snap : Snapshot) : Prop :=
  j.outlived = false ∧ ∃ seen, j.job.seen? = some (uri, seen) ∧ seen.edits = snap.edits

/-- What stands in a list stays there when something is put at the place of something else. -/
theorem mem_set_of_mem {α : Type} {l : List α} {a : α} (h : a ∈ l) (place : Nat) (b : α) :
    l[place]? = some a ∨ a ∈ l.set place b := by
  obtain ⟨i, hi⟩ := List.mem_iff_getElem?.mp h
  by_cases heq : place = i
  · exact .inl (heq ▸ hi)
  · exact .inr (List.mem_of_getElem? ((List.getElem?_set_ne heq).trans hi))

/-- What stands in a list stays there when something else is taken out. -/
theorem mem_eraseIdx_of_mem {α : Type} {l : List α} {a : α} (h : a ∈ l) (place : Nat) :
    l[place]? = some a ∨ a ∈ l.eraseIdx place := by
  obtain ⟨i, hi⟩ := List.mem_iff_getElem?.mp h
  by_cases heq : i = place
  · exact .inl (heq ▸ hi)
  · exact .inr (List.mem_eraseIdx_iff_getElem?.mpr ⟨i, heq, hi⟩)

namespace BusySession

variable {b : BusySession U} {step : BusyStep U} {j : Underway U} {place : Nat}

/-- Documents are settled, and the document of a job that was not outlived goes on from what the job
saw of it. -/
structure Tracks (b : BusySession U) : Prop where
  settled : ∀ uri d, b.session.documents.get? uri = some d → d.Settled
  seen : ∀ j ∈ b.jobs, j.outlived = false → ∀ uri seen, j.job.seen? = some (uri, seen) →
    ∃ d, b.session.documents.get? uri = some d ∧ d.Follows seen

/-- A session has neither documents nor jobs at its start. -/
theorem tracks_start : (start : BusySession U).Tracks where
  settled _ _ h := by cases h
  seen _ h := absurd h List.not_mem_nil

/-- A job that begins follows what it sees. -/
theorem Tracks.begin (h : b.Tracks) {job : Job U}
    (hseen : job.seen? = some (uri, seen)) (hsnap : b.session.snapshot? uri = some seen) :
    (b.begin job).Tracks := by
  refine ⟨h.settled, fun j hj hkept u other hother => ?_⟩
  rcases List.mem_append.mp hj with hj | hj
  · exact h.seen j hj hkept u other hother
  · obtain rfl := List.mem_singleton.mp hj
    cases hseen.symm.trans hother
    obtain ⟨d, hd, rfl⟩ := Option.map_eq_some_iff.mp hsnap
    exact ⟨d, hd, d.follows_snapshot⟩

/-- A job that saw an open document, and its edits, saw its text. -/
theorem Tracks.content_eq (h : b.Tracks) (hj : j ∈ b.jobs)
    (hsnap : b.session.snapshot? uri = some snap) (hkept : j.outlived = false)
    (hseen : j.job.seen? = some (uri, seen)) (hedits : seen.edits = snap.edits) :
    seen.content = snap.content := by
  obtain ⟨d, hd, hfollows⟩ := h.seen j hj hkept uri seen hseen
  rw [Session.snapshot?_eq_some hd] at hsnap
  cases hsnap
  exact hfollows.2 hedits

end BusySession

variable [Addressing U]

/-- A job that goes on from what it saw goes on from the same; otherwise it saw nothing. -/
theorem Session.seen?_advance (s : Session U) (around : Surroundings) (job : Job U) :
    (s.advance around job).2.1.seen? = none ∨
      (s.advance around job).2.1.seen? = job.seen? := by
  cases job with
  | configuring initial =>
    cases initial with
    | true =>
      simp only [advance]
      split <;> exact .inl rfl
    | false => exact .inl rfl
  | searching roots search indexed progress =>
    simp only [advance, searchOn]
    split <;> split <;> exact .inl rfl
  | restoring u =>
    simp only [advance, restore]
    split <;> exact .inl rfl
  | reading path =>
    simp only [advance]
    split <;> exact .inl rfl
  | computing run seen => exact .inr rfl
  | checking run seen =>
    simp only [advance]
    split
    · exact .inr rfl
    · exact .inl rfl
  | showing | clearing | indexing | publishing | answering | finished => exact .inl rfl

namespace BusySession

variable {b : BusySession U} {step : BusyStep U} {steps more : List (BusyStep U)} {j : Underway U}
  {place : Nat}

/-! ## Courses -/

/-- A course that goes on where another one ends. -/
theorem takeAll_append (b : BusySession U) (steps more : List (BusyStep U)) :
    b.takeAll (steps ++ more) = (b.takeAll steps).takeAll more := List.foldl_append

/-- Something holds of each step of a course where it is taken. -/
def Throughout (holds : BusySession U → BusyStep U → Prop) :
    BusySession U → List (BusyStep U) → Prop
  | _, [] => True
  | b, step :: steps => holds b step ∧ Throughout holds (b.take step) steps

/-- What holds throughout a course and throughout the one that goes on where it ends holds throughout
both. -/
theorem Throughout.append {holds : BusySession U → BusyStep U → Prop} (h : Throughout holds b steps)
    (hmore : Throughout holds (b.takeAll steps) more) : Throughout holds b (steps ++ more) := by
  induction steps generalizing b with
  | nil => exact hmore
  | cons step steps ih => exact ⟨h.1, ih h.2 hmore⟩

/-- What each step keeps that something holds of, a course keeps throughout which it holds. -/
theorem Throughout.keeps {holds : BusySession U → BusyStep U → Prop} (kept : BusySession U → Prop)
    (h : Throughout holds b steps) (hb : kept b)
    (hkeeps : ∀ {b step}, kept b → holds b step → kept (b.take step)) : kept (b.takeAll steps) := by
  induction steps generalizing b with
  | nil => exact hb
  | cons step steps ih => exact ih h.2 (hkeeps hb h.1)

/-- Every job is through. -/
def IsIdle (b : BusySession U) : Prop := ∀ j ∈ b.jobs, j.job = .finished

/-- No run is to come, and every job is through. -/
def AtRest (b : BusySession U) : Prop := b.session.pending = [] ∧ b.IsIdle

/-- Nothing but the next stage of a job comes before all jobs are through. -/
def Undisturbed (b : BusySession U) (steps : List (BusyStep U)) : Prop :=
  Throughout (fun b step => b.IsIdle ∨ ∃ place around, step = .advance place around) b steps

/-! ## Steps -/

/-- The jobs after an event: those under way, and the one that the event leaves behind. -/
theorem take_event (b : BusySession U) (event : Event U) :
    b.take (.event event) = ⟨b.session.hear event,
      b.jobs.map (·.after event) ++ event.job?.toList.map fun job => ⟨job, false⟩,
      b.told ++ event.announcements⟩ := by
  simp only [take]
  cases event.job? with
  | none => simp [hear]
  | some job => rfl

/-- A run that is due is taken out, and begins where its document has its version. -/
theorem take_wake_cases (b : BusySession U) (place : Nat) :
    b.take (.wake place) = b ∨
      ∃ run jobs, b.session.pending[place]? = some run ∧
        b.take (.wake place) = { b with
          session := { b.session with pending := b.session.pending.eraseIdx place },
          jobs := b.jobs ++ jobs } ∧
        (jobs = [] ∧ (∀ snap, b.session.snapshot? run.uri = some snap → ¬ run.IsFor run.uri snap) ∨
          ∃ seen, jobs = [⟨.computing run seen, false⟩] ∧
            b.session.snapshot? run.uri = some seen ∧ run.IsFor run.uri seen) := by
  simp only [take]
  cases hrun : b.session.pending[place]? with
  | none => exact .inl rfl
  | some run =>
    simp only
    split
    · refine .inr ⟨run, ?_⟩
      cases hlook : b.session.look? run with
      | none =>
        refine ⟨[], rfl, by simp, .inl ⟨rfl, fun snap hsnap hfor => ?_⟩⟩
        simp [Session.look?, hsnap, hfor.2] at hlook
      | some seen =>
        obtain ⟨hseen, hversion⟩ := Option.filter_eq_some_iff.mp hlook
        exact ⟨_, rfl, rfl, .inr ⟨seen, rfl, hseen, rfl, (of_decide_eq_true hversion).symm⟩⟩
    · exact .inl rfl

/-- A request begins where a document is open. -/
theorem take_look_cases (b : BusySession U) (uri : U) :
    b.take (.look uri) = b ∨ ∃ seen, b.session.snapshot? uri = some seen ∧
      b.take (.look uri) = b.begin (.answering uri seen) := by
  simp only [take]
  cases hseen : b.session.snapshot? uri with
  | none => exact .inl rfl
  | some seen => exact .inr ⟨seen, rfl, rfl⟩

/-- A busy session after the stage that one of its jobs is at. -/
def stage (b : BusySession U) (place : Nat) (around : Surroundings) (j : Underway U) :
    BusySession U :=
  ⟨(b.session.advance around j.job).1,
    b.jobs.set place { j with job := (b.session.advance around j.job).2.1 },
    b.told ++ (b.session.advance around j.job).2.2⟩

/-- The job at a place advances. -/
theorem take_advance (hj : b.jobs[place]? = some j) (around : Surroundings) :
    b.take (.advance place around) = b.stage place around j := by
  simp only [take, hj]
  rfl

/-- A job advances if there is one at the place. -/
theorem take_advance_cases (b : BusySession U) (place : Nat) (around : Surroundings) :
    b.take (.advance place around) = b ∨ ∃ j, b.jobs[place]? = some j ∧
      b.take (.advance place around) = b.stage place around j := by
  cases hj : b.jobs[place]? with
  | none => exact .inl (by simp only [take, hj])
  | some j => exact .inr ⟨j, rfl, take_advance hj around⟩

/-- A job at another place stays where it is. -/
theorem mem_jobs_stage {k : Underway U} (h : k ∈ b.jobs) (place : Nat) (around : Surroundings)
    (j : Underway U) : b.jobs[place]? = some k ∨ k ∈ (b.stage place around j).jobs :=
  mem_set_of_mem h place _

/-- The job that advanced is at its next stage. -/
theorem mem_jobs_stage_self (h : b.jobs[place]? = some j) (around : Surroundings) :
    { j with job := (b.session.advance around j.job).2.1 } ∈ (b.stage place around j).jobs :=
  List.mem_iff_getElem?.mpr ⟨place, by
    rw [stage, List.getElem?_set_self (List.getElem?_eq_some_iff.mp h).1]⟩

/-! ## How often a document was edited -/

/-- What a document looks like is only changed by events. -/
theorem snapshot?_take (b : BusySession U) (hstep : ∀ event, step ≠ .event event) (uri : U) :
    (b.take step).session.snapshot? uri = b.session.snapshot? uri := by
  cases step with
  | event event => exact absurd rfl (hstep event)
  | pass milliseconds => rfl
  | wake place =>
    rcases b.take_wake_cases place with heq | ⟨run, jobs, -, heq, -⟩ <;> rw [heq]
    rfl
  | look u =>
    rcases b.take_look_cases u with heq | ⟨seen, -, heq⟩ <;> rw [heq]
    rfl
  | advance place around =>
    rcases b.take_advance_cases place around with heq | ⟨j, -, heq⟩ <;> rw [heq]
    exact b.session.snapshot?_advance around j.job uri

omit [Addressing U] in
/-- An event counts as one edit at most. -/
theorem edits_hear_le {s : Session U} {n : Nat}
    (h : ∀ uri snap, s.snapshot? uri = some snap → snap.edits ≤ n) (event : Event U) (uri : U)
    (snap : Snapshot) (hsnap : (s.hear event).snapshot? uri = some snap) : snap.edits ≤ n + 1 := by
  have hbefore (hsame : (s.hear event).documents.get? uri = s.documents.get? uri) :
      snap.edits ≤ n + 1 := by
    rw [Session.snapshot?, hsame] at hsnap
    exact Nat.le_succ_of_le (h uri snap hsnap)
  have hget := s.get?_documents_hear event uri
  cases event with
  | began | initialized | configurationChanged => exact hbefore hget
  | opened u version text =>
    simp only at hget
    split at hget
    · rw [Session.snapshot?_eq_some hget] at hsnap
      cases hsnap
      exact Nat.zero_le _
    · exact hbefore hget
  | changed u version changes =>
    simp only at hget
    split at hget
    · next hu =>
      have hedits : ((s.documents.get? u).getD .blank).edits ≤ n := by
        cases hd : s.documents.get? u with
        | none => exact Nat.zero_le n
        | some d => exact h u _ (Session.snapshot?_eq_some hd)
      rw [Session.snapshot?_eq_some hget] at hsnap
      cases hsnap
      exact Nat.le_trans (Document.edits_change_le _ version changes) (Nat.succ_le_succ hedits)
    · exact hbefore hget
  | closed u =>
    simp only at hget
    split at hget
    · rw [Session.snapshot?, hget] at hsnap
      cases hsnap
    · exact hbefore hget

/-- A course counts no more edits than it has steps, so that they are counted in 64 bits in every
course of fewer than 2⁶⁴ steps. -/
theorem edits_takeAll_le (steps : List (BusyStep U)) {n : Nat}
    (h : ∀ uri snap, b.session.snapshot? uri = some snap → snap.edits ≤ n) (uri : U)
    (snap : Snapshot) (hsnap : (b.takeAll steps).session.snapshot? uri = some snap) :
    snap.edits ≤ n + steps.length := by
  induction steps generalizing b n with
  | nil => exact h uri snap hsnap
  | cons step steps ih =>
    have hstep : ∀ uri snap, (b.take step).session.snapshot? uri = some snap →
        snap.edits ≤ n + 1 := by
      by_cases hevent : ∃ event, step = .event event
      · obtain ⟨event, rfl⟩ := hevent
        rw [take_event]
        exact edits_hear_le h event
      · intro uri snap hsnap
        rw [snapshot?_take b (fun event heq => hevent ⟨event, heq⟩)] at hsnap
        exact Nat.le_succ_of_le (h uri snap hsnap)
    rw [List.length_cons, Nat.add_comm steps.length, ← Nat.add_assoc]
    exact ih hstep hsnap

/-! ## What jobs saw -/

/-- A document that is opened is another one, and a document that is changed goes on. -/
theorem Tracks.event (h : b.Tracks) (event : Event U) : (b.take (.event event)).Tracks := by
  rw [take_event]
  have hget := b.session.get?_documents_hear event
  refine ⟨fun uri d hd => ?_, fun j' hj' hkept uri seen hseen => ?_⟩
  · rw [hget] at hd
    cases event with
    | began | initialized | configurationChanged => exact h.settled uri d hd
    | opened u version text =>
      simp only at hd
      split at hd
      · cases hd
        exact Document.settled_opened text version
      · exact h.settled uri d hd
    | changed u version changes =>
      simp only at hd
      split at hd
      · cases hd
        refine Document.Settled.change ?_ version changes
        cases hbefore : b.session.documents.get? u with
        | none => exact Document.settled_blank
        | some d => exact h.settled u d hbefore
      · exact h.settled uri d hd
    | closed u =>
      simp only at hd
      split at hd
      · cases hd
      · exact h.settled uri d hd
  · rcases List.mem_append.mp hj' with hj' | hj'
    · obtain ⟨j, hj, rfl⟩ := List.mem_map.mp hj'
      rw [Underway.job_after] at hseen
      obtain ⟨hbefore, hclosed, hopened⟩ := Underway.kept_of_after hkept hseen
      obtain ⟨d, hd, hfollows⟩ := h.seen j hj hbefore uri seen hseen
      cases event with
      | began | initialized | configurationChanged => exact ⟨d, (hget uri).trans hd, hfollows⟩
      | opened u version text =>
        have hu : u ≠ uri := fun heq => hopened version text (heq ▸ rfl)
        exact ⟨d, (hget uri).trans ((if_neg hu).trans hd), hfollows⟩
      | closed u =>
        have hu : u ≠ uri := fun heq => hclosed (heq ▸ rfl)
        exact ⟨d, (hget uri).trans ((if_neg hu).trans hd), hfollows⟩
      | changed u version changes =>
        -- The document of the job is still open, so that no new one is made for the change.
        by_cases hu : u = uri
        · subst hu
          refine ⟨d.change version changes, (hget u).trans ?_,
            hfollows.change (h.settled u d hd) version changes⟩
          simp only [if_true, hd, Option.getD_some]
        · exact ⟨d, (hget uri).trans ((if_neg hu).trans hd), hfollows⟩
    · -- The job that an event leaves behind saw nothing.
      obtain ⟨job, hjob, rfl⟩ := List.mem_map.mp hj'
      cases event <;> cases Option.mem_toList.mp hjob <;> cases hseen

/-- A stage changes a document only by storing a tree. -/
theorem Tracks.stage (h : b.Tracks) {place : Nat} (hj : b.jobs[place]? = some j)
    (around : Surroundings) : (b.stage place around j).Tracks := by
  have hget : ∀ uri d, (b.stage place around j).session.documents.get? uri = some d →
      ∃ d₀, b.session.documents.get? uri = some d₀ ∧ (d = d₀ ∨ ∃ seen p, d = d₀.store seen p) := by
    intro uri d hd
    simp only [BusySession.stage] at hd
    rcases b.session.documents_advance_cases around j.job with ⟨u, seen, -, heq⟩ | heq
    · rw [heq, Session.get?_keep] at hd
      obtain ⟨d₀, hd₀, rfl⟩ := Option.map_eq_some_iff.mp hd
      refine ⟨d₀, hd₀, ?_⟩
      split
      · exact .inr ⟨seen, _, rfl⟩
      · exact .inl rfl
    · exact ⟨d, heq ▸ hd, .inl rfl⟩
  refine ⟨fun uri d hd => ?_, fun k hk hkept uri seen hseen => ?_⟩
  · obtain ⟨d₀, hd₀, rfl | ⟨seen, p, rfl⟩⟩ := hget uri d hd
    · exact h.settled uri _ hd₀
    · exact (h.settled uri d₀ hd₀).store p
  · -- The job that advanced saw what it saw before.
    obtain ⟨d₀, hd₀, hfollows⟩ : ∃ d₀, b.session.documents.get? uri = some d₀ ∧
        d₀.Follows seen := by
      rcases List.mem_or_eq_of_mem_set hk with hk | rfl
      · exact h.seen k hk hkept uri seen hseen
      · rcases b.session.seen?_advance around j.job with hnone | hsame
        · cases hnone.symm.trans hseen
        · exact h.seen j (List.mem_of_getElem? hj) hkept uri seen (hsame ▸ hseen)
    obtain ⟨d, hd⟩ : ∃ d, (b.stage place around j).session.documents.get? uri = some d := by
      have hsame := b.session.snapshot?_advance around j.job uri
      rw [Session.snapshot?_eq_some hd₀] at hsame
      obtain ⟨d, hd, -⟩ := Option.map_eq_some_iff.mp hsame
      exact ⟨d, hd⟩
    refine ⟨d, hd, ?_⟩
    obtain ⟨d₁, hd₁, hstored⟩ := hget uri d hd
    cases hd₀.symm.trans hd₁
    rcases hstored with rfl | ⟨other, p, rfl⟩
    · exact hfollows
    · exact hfollows.store p

/-- Every step keeps track of the documents. -/
theorem Tracks.take (h : b.Tracks) (step : BusyStep U) : (b.take step).Tracks := by
  cases step with
  | event event => exact h.event event
  | pass milliseconds => exact ⟨h.settled, h.seen⟩
  | wake place =>
    rcases b.take_wake_cases place with heq | ⟨run, jobs, -, heq, ⟨rfl, -⟩ | ⟨seen, rfl, hsnap, -⟩⟩
    · rwa [heq]
    · rw [heq, List.append_nil]
      exact ⟨h.settled, h.seen⟩
    · rw [heq]
      have herased : ({ b with session :=
          { b.session with pending := b.session.pending.eraseIdx place } } : BusySession U).Tracks :=
        ⟨h.settled, h.seen⟩
      have hseen : (Job.computing run seen).seen? = some (run.uri, seen) := rfl
      exact herased.begin hseen hsnap
  | look uri =>
    rcases b.take_look_cases uri with heq | ⟨seen, hsnap, heq⟩ <;> rw [heq]
    · exact h
    · exact h.begin rfl hsnap
  | advance place around =>
    rcases b.take_advance_cases place around with heq | ⟨j, hj, heq⟩ <;> rw [heq]
    · exact h
    · exact h.stage hj around

/-! ## What is still to be done about a document -/

/-- A run for what a document looks like is to come, or a job of some kind saw the document as it
is. -/
def Awaits (kind : Snapshot → Job U → Prop) (b : BusySession U) (uri : U) (snap : Snapshot) : Prop :=
  (∃ run ∈ b.session.pending, run.IsFor uri snap) ∨
    ∃ j ∈ b.jobs, kind snap j.job ∧ j.Saw uri snap

variable {kind : Snapshot → Job U → Prop}

/-- Whatever makes a document look as it does leaves a run to come for that, and a run that begins
sees the document as it is. So only a stage makes that nothing is to be done any more. -/
theorem awaits_take (hkind : ∀ run seen, kind seen (.computing run seen))
    (hstep : ∀ place around, step ≠ .advance place around)
    (hsnap : (b.take step).session.snapshot? uri = some snap) :
    (b.take step).Awaits kind uri snap ∨
      b.session.snapshot? uri = some snap ∧ ¬ b.Awaits kind uri snap := by
  by_cases hbefore : b.session.snapshot? uri = some snap ∧ ¬ b.Awaits kind uri snap
  · exact .inr hbefore
  left
  cases step with
  | event event =>
    rw [take_event] at hsnap ⊢
    rcases b.session.hear_cases event uri with hcome | ⟨hsame, hclosed, hopened⟩
    · exact .inl (hcome snap hsnap)
    · rcases not_and_not_right.mp hbefore (hsame ▸ hsnap) with
        ⟨run, hrun, hfor⟩ | ⟨j, hj, hkindj, hsaw⟩
      · exact .inl ⟨run, b.session.pending_subset_hear event hrun, hfor⟩
      · obtain ⟨seen, hseen, -⟩ := hsaw.2
        refine .inr ⟨j, List.mem_append_left _ (List.mem_map.mpr ⟨j, hj, ?_⟩), hkindj, hsaw⟩
        exact Underway.after_eq_of_ne hopened hclosed hseen
  | pass milliseconds => exact not_and_not_right.mp hbefore hsnap
  | wake place =>
    rcases b.take_wake_cases place with heq | ⟨run, jobs, hplace, heq, hlook⟩
    · rw [heq] at hsnap ⊢
      exact not_and_not_right.mp hbefore hsnap
    · rw [heq] at hsnap ⊢
      rcases not_and_not_right.mp hbefore hsnap with ⟨run', hrun', hfor⟩ | ⟨j, hj, hkindj, hsaw⟩
      · rcases mem_eraseIdx_of_mem hrun' place with hwoken | hleft
        · -- The run that begins is the one that was to come, and it sees the document.
          cases hplace.symm.trans hwoken
          obtain ⟨rfl, hversion⟩ := hfor
          rcases hlook with ⟨-, hidle⟩ | ⟨seen, rfl, hseen, -⟩
          · exact absurd ⟨rfl, hversion⟩ (hidle snap hsnap)
          · cases hseen.symm.trans hsnap
            exact .inr ⟨_, List.mem_append_right _ List.mem_cons_self, hkind run snap, rfl,
              snap, rfl, rfl⟩
        · exact .inl ⟨run', hleft, hfor⟩
      · exact .inr ⟨j, List.mem_append_left _ hj, hkindj, hsaw⟩
  | look u =>
    rcases b.take_look_cases u with heq | ⟨seen, -, heq⟩
    · rw [heq] at hsnap ⊢
      exact not_and_not_right.mp hbefore hsnap
    · rw [heq] at hsnap ⊢
      exact (not_and_not_right.mp hbefore hsnap).imp id fun ⟨j, hj, hrest⟩ =>
        ⟨j, List.mem_append_left _ hj, hrest⟩
  | advance place around => exact absurd rfl (hstep place around)

/-- A stage does what was to be done about a document, or that is still to be done. -/
theorem Awaits.stage (h : b.Awaits kind uri snap) {place : Nat} (hj : b.jobs[place]? = some j)
    (around : Surroundings) :
    (b.stage place around j).Awaits kind uri snap ∨ kind snap j.job ∧ j.Saw uri snap := by
  rcases h with ⟨run, hrun, hfor⟩ | ⟨k, hk, hkindk, hsaw⟩
  · exact .inl (.inl ⟨run, b.session.pending_subset_advance around j.job hrun, hfor⟩)
  · rcases b.mem_jobs_stage hk place around j with hself | hstays
    · cases hj.symm.trans hself
      exact .inr ⟨hkindk, hsaw⟩
    · exact .inl (.inr ⟨k, hstays, hkindk, hsaw⟩)

/-- No run for a document is to come or under way. -/
def NoRunFor (b : BusySession U) (uri : U) : Prop :=
  (∀ run ∈ b.session.pending, run.uri ≠ uri) ∧
    ∀ j ∈ b.jobs, ∀ run seen, j.job.run? = some (run, seen) → run.uri ≠ uri

end BusySession

end CssWorkbench
