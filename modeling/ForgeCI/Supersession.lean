import ForgeCI.Submission

/-!
# Supersession and the normal cancellation path

A new pull-request delivery supersedes the active runs of older revisions.
`CreateSCMDelivery` writes the run rows only, where `CancelQueued` and
`RequestCancel` also cancel the `PENDING` jobs and finalize the run.

The comparison assumes nothing of how the rows came about.  In the local mode a
run is `RUNNING` with all its jobs ended until `FinishRun` writes its status,
and a delivery may arrive in between.
-/

namespace Postgres

open Traces

/-- A job row without its timestamps and message. -/
def Job.outline (j : Job) : Job :=
  { j with startedAt := none, finishedAt := none, errorMessage := none }

/-- A run row and its job rows without timestamps and messages. -/
def Run.outline (r : Run) : Run :=
  { r with
    startedAt := none
    finishedAt := none
    cancelRequestedAt := none
    errorMessage := none
    jobs := r.jobs.map Job.outline
    artifacts := [] }

/-- The normal cancellation of an active run: `CancelQueued` of a `QUEUED` run,
`RequestCancel` of a `RUNNING` one. -/
def Run.cancel (s : Settings) (now : Time) (r : Run) : Except StoreError Run :=
  if r.status = .queued then r.cancelQueued now else r.requestCancel s now

/-- The runs after the normal cancellation of each run that a delivery
supersedes. -/
def Rows.cancelSuperseded (s : Settings) (now : Time) (input : Delivery) (t : Rows) :
    Except StoreError (List Run) :=
  onRuns (fun r => if t.superseded input r then r.cancel s now else .ok r) t.runs

/-- The delivery has not been recorded before. -/
def Rows.isNew (t : Rows) (input : Delivery) : Bool :=
  t.deliveries.all fun d => d.provider ≠ input.provider || d.deliveryID ≠ input.deliveryID

variable {s : Settings} {now : Time} {t t' : Rows} {input : Delivery} {r r' : Run} {j : Job}

/-- What a new delivery that supersedes does to the runs. -/
theorem createSCMDelivery_supersedes {d : Delivery} (hnew : t.isNew input = true)
    (hsupersedes : input.supersedes = true) (h : createSCMDelivery now input t = .ok (t', d)) :
    t'.runs = Table.updateWhere (t.superseded input) (Run.supersede now) t.runs := by
  unfold createSCMDelivery at h
  split at h
  · cases h
  split at h
  · rename_i stored hstored
    have hmem := List.mem_of_find?_eq_some hstored
    have hsame := List.find?_some hstored
    have hother := List.all_eq_true.1 hnew stored hmem
    grind
  · cases h
    rfl

theorem Job.outline_status (j : Job) : j.outline.status = j.status := rfl

/-- Canceling the `PENDING` jobs shows in the outline exactly when there are
any. -/
theorem outline_jobs_iff {f : Job → Job} (hf : ∀ j, (f j).status = .canceled) (jobs : List Job) :
    jobs.map Job.outline =
        (Table.updateWhere (fun j => decide (j.status = .pending)) f jobs).map Job.outline ↔
      ∀ j ∈ jobs, j.status ≠ .pending := by
  rw [Table.updateWhere, List.map_map, List.map_inj_left]
  grind [Job.outline_status]

/-- The normal path of a `RUNNING` run without `PENDING` jobs leaves its status
exactly when a job is still `RUNNING`: otherwise `finalizeRun` ends the run, or
finds no jobs and fails. -/
theorem Run.finalizeRun_running_iff (hrunning : r.status = .running)
    (hnone : ∀ j ∈ r.jobs, j.status ≠ .pending) :
    (∃ r', r.finalizeRun s now = .ok r' ∧ r'.status = .running) ↔
      ∃ j ∈ r.jobs, j.status = .running := by
  constructor
  · rintro ⟨r', hok, hstatus⟩
    rcases Run.finalizeRun_ok hok with ⟨rfl, ⟨j, hj, hleft⟩ | hterm⟩ | ⟨-, -, -, rfl⟩
    · have hpending := hnone j hj
      grind [JobStatus.unfinished]
    · rw [hrunning] at hterm
      cases hterm
    · have hterm := r.finalStatus_terminal
      rw [show r.finalStatus = .running from hstatus] at hterm
      cases hterm
  · rintro ⟨j, hj, hstatus⟩
    have hleft : r.jobs.any (·.status.unfinished) = true :=
      List.any_eq_true.2 ⟨j, hj, by rw [hstatus]; rfl⟩
    exact ⟨r, by simp [finalizeRun, hleft], hrunning⟩

/-- **One superseded run.**  Supersession leaves what the normal path leaves
exactly when the run has no `PENDING` job and, if it is `RUNNING`, has a job
that is. -/
theorem Run.supersede_outline_iff (hactive : r.status.terminal = false) :
    (∃ r', r.cancel s now = .ok r' ∧ (r.supersede now).outline = r'.outline) ↔
      (∀ j ∈ r.jobs, j.status ≠ .pending) ∧
        (r.status = .running → ∃ j ∈ r.jobs, j.status = .running) := by
  rcases RunStatus.terminal_eq_false_iff.1 hactive with hqueued | hrunning
  · have hcancel : r.cancel s now = .ok (r.canceledRows now) := by
      simp [cancel, cancelQueued, hqueued]
    rw [← outline_jobs_iff (f := fun j => j.finish .canceled now j.errorMessage) fun _ => rfl]
    grind [supersede, outline, canceledRows, updateJobs]
  · have hcancel : r.cancel s now = (r.cancelingRows now).finalizeRun s now := by
      simp [cancel, requestCancel, hrunning]
    have hcanceling : (∀ j ∈ r.jobs, j.status ≠ .pending) →
        (r.cancelingRows now).jobs = r.jobs := by
      intro hnone
      conv_rhs => rw [← List.map_id r.jobs]
      exact List.map_congr_left fun j hj => if_neg (by simpa using hnone j hj)
    rw [hcancel]
    constructor
    · rintro ⟨r', hok, heq⟩
      have hjobs : (r.supersede now).jobs.map Job.outline = r'.jobs.map Job.outline :=
        congrArg Run.jobs heq
      rw [Run.finalizeRun_jobs hok] at hjobs
      have hnone := (outline_jobs_iff (fun _ => rfl) r.jobs).1 hjobs
      have hstatus : (r.supersede now).outline.status = r'.outline.status :=
        congrArg Run.status heq
      have hkept : (r.supersede now).outline.status = .running := by grind [supersede, outline]
      refine ⟨hnone, fun _ => ?_⟩
      have hsame := hcanceling hnone
      rw [← hsame] at hnone ⊢
      exact (Run.finalizeRun_running_iff (r := r.cancelingRows now) hrunning hnone).1
        ⟨r', hok, hstatus.symm.trans hkept⟩
    · rintro ⟨hnone, hwork⟩
      obtain ⟨j, hj, hstatus⟩ := hwork hrunning
      have hleft : (r.cancelingRows now).jobs.any (·.status.unfinished) = true := by
        rw [hcanceling hnone]
        exact List.any_eq_true.2 ⟨j, hj, by rw [hstatus]; rfl⟩
      refine ⟨r.cancelingRows now, by simp [finalizeRun, hleft], ?_⟩
      rw [outline, outline, hcanceling hnone]
      grind [supersede, cancelingRows, updateJobs]

/-- A comparison with the runs after an operation on each of them. -/
theorem onRuns_forall₂_iff {f : Run → Except StoreError Run} {g : Run → Run}
    {R : Run → Run → Prop} (l : List Run) :
    (∃ l', onRuns f l = .ok l' ∧ List.Forall₂ R (l.map g) l') ↔
      ∀ r ∈ l, ∃ r', f r = .ok r' ∧ R (g r) r' := by
  induction l with
  | nil => simp [onRuns]
  | cons r rest ih =>
    simp only [onRuns, List.map_cons, List.forall_mem_cons, ← ih]
    cases hr : f r with
    | error e => simp
    | ok r' => cases hrest : onRuns f rest <;> simp

namespace Sample

def firstRevision : Delivery where
  id := 60
  provider := "github"
  deliveryID := "first"
  repositoryID := 50
  eventType := "pull_request"
  action := "opened"
  commitSHA := some "a"
  pullRequestNumber := some 5
  payloadSHA256 := digest
  status := .pending
  receivedAt := 1

def secondRevision : Delivery :=
  { firstRevision with
    id := 61
    deliveryID := "second"
    action := "synchronize"
    commitSHA := some "b" }

def underReview (maxParallel : Nat) : List Request :=
  [⟨0, .createSCMRepository ⟨50, "github", "owner/repo"⟩⟩, ⟨1, .createSCMDelivery firstRevision⟩,
    ⟨2, .claimSCMDelivery 70 "worker" 1000⟩,
    ⟨3, .createSCMRun 70 (submission 1 pair pairGraph maxParallel (some snapshot))
      ⟨80, 60, 50, 1, "github", "a", some 5⟩⟩,
    ⟨4, .registerRunner { runner with maxParallel := 2 }⟩,
    ⟨5, .leaseJob 7 100⟩, ⟨6, .leaseJob 7 101⟩]

/-- The store when the second revision arrives. -/
def reviewed (maxParallel : Nat) : Database :=
  Database.empty.after settings (underReview maxParallel)

end Sample

end Postgres
