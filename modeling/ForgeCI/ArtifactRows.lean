import ForgeCI.RunInvariants

/-!
# The life of an artifact row

An artifact row is inserted by `CommitArtifacts`, gets its expiry time when its
run ends and is marked deleted by `ExpireArtifacts` when that time has come.
-/

namespace Postgres

open GoLib

/-- One change of an artifact row; `ended` says that its run has ended. -/
inductive ArtifactStep (ended : Prop) (now : Time) : Artifact → Artifact → Prop
  | keep (a : Artifact) : ArtifactStep ended now a a
  | stamp {a : Artifact} (expires : Time) (finished : ended) (unstamped : a.expiresAt = none) :
      ArtifactStep ended now a { a with expiresAt := some expires }
  | delete {a : Artifact} (expiring : a.expiring now = true) :
      ArtifactStep ended now a { a with deletedAt := some now }

variable {s : Settings} {now : Time} {call : Call} {r r' r₂ : Run} {a a' : Artifact}
variable {ended : Prop}

/-- The columns of a row that are not about its expiry. -/
def Artifact.content (a : Artifact) : Artifact :=
  { a with expiresAt := none, deletedAt := none }

/-- A row keeps what it is about. -/
theorem ArtifactStep.content (h : ArtifactStep ended now a a') : a'.content = a.content := by
  cases h <;> rfl

/-- A stamped row stays stamped. -/
theorem ArtifactStep.stamped (h : ArtifactStep ended now a a')
    (ha : a.expiresAt.isSome = true) : a'.expiresAt.isSome = true := by
  cases h with
  | keep => exact ha
  | stamp => rfl
  | delete => exact ha

/-- A deleted row stays deleted. -/
theorem ArtifactStep.live (h : ArtifactStep ended now a a') (ha : a'.deletedAt = none) :
    a.deletedAt = none := by
  cases h with
  | keep => exact ha
  | stamp => exact ha
  | delete => cases ha

/-- Only the end of the run touches a row that does not expire. -/
theorem ArtifactStep.fresh (h : ArtifactStep ended now a a') (hopen : ¬ ended)
    (ha : a.expiresAt = none) : a' = a := by
  cases h with
  | keep => rfl
  | stamp _ finished => exact absurd finished hopen
  | delete expiring => simp [Artifact.expiring, ha] at expiring

theorem Run.stampArtifacts_stamped {retention finished : Time}
    (hfinished : r.finishedAt = some finished) (ha : a ∈ (r.stampArtifacts retention).artifacts) :
    a.expiresAt.isSome = true := by
  obtain ⟨b, -, rfl⟩ := Table.mem_updateWhere.1 ha
  split_ifs with hnone
  · rw [hfinished]
    rfl
  · simpa [Option.isSome_iff_ne_none] using hnone

theorem Run.finalizeRun_artifactSteps (h : r.finalizeRun s now = .ok r') :
    List.Forall₂ (ArtifactStep (r'.status.terminal = true) now) r.artifacts r'.artifacts := by
  rcases Run.finalizeRun_ok h with ⟨rfl, -⟩ | ⟨-, -, -, rfl⟩
  · exact List.forall₂_same.2 fun a _ => .keep a
  · refine Table.forall₂_updateWhere fun a _ => ?_
    split_ifs with hnone
    · exact .stamp _ r.finalStatus_terminal (by simpa using hnone)
    · exact .keep a

/-- `finalizeRun` stamps the rows of the run it ends. -/
theorem Run.finalizeRun_ending (h : r.finalizeRun s now = .ok r')
    (hopen : r.status.terminal = false) (hend : r'.status.terminal = true) :
    ∀ a ∈ r'.artifacts, a.expiresAt.isSome = true := by
  rcases Run.finalizeRun_ok h with ⟨rfl, -⟩ | ⟨-, -, -, rfl⟩
  · rw [hopen] at hend
    cases hend
  · exact fun a ha => Run.stampArtifacts_stamped (r := r.finishAs r.finalStatus now) rfl ha

theorem Run.completedRows_artifacts (name : String) (status : JobStatus) (now : Time)
    (message : Option String) (r : Run) :
    (r.completedRows name status now message).artifacts = r.artifacts := by
  obtain ⟨jobs, heq, -⟩ := r.completedRows_eq name status now message
  rw [heq]
  rfl

theorem Run.abortJobs_artifactSteps {p : Job → Bool} {message : String}
    (h : r.abortJobs s p now message = .ok r') :
    List.Forall₂ (ArtifactStep (r'.status.terminal = true) now) r.artifacts r'.artifacts := by
  rcases Run.abortJobs_spec h with rfl | ⟨-, jobs, -, hfin⟩
  · exact List.forall₂_same.2 fun a _ => .keep a
  · have hsteps := Run.finalizeRun_artifactSteps hfin
    exact hsteps

/-- Recovery ends a legacy run, or aborts jobs. -/
theorem Run.recover_artifactSteps (h : r.recover s now = .ok r') :
    List.Forall₂ (ArtifactStep (r'.status.terminal = true) now) r.artifacts r'.artifacts := by
  unfold Run.recover Run.abandonLegacy at h
  split_ifs at h
  · -- the jobs were all aborted with the run, so there is none left to abort
    rcases Run.abortJobs_ok h with ⟨-, rfl⟩ | ⟨⟨j, hj, hrunning⟩, -⟩
    · refine Table.forall₂_updateWhere fun a _ => ?_
      split_ifs with hnone
      · exact .stamp _ rfl (by simpa using hnone)
      · exact .keep a
    · obtain ⟨k, -, rfl⟩ := Table.mem_updateWhere.1 hj
      cases hk : k.status <;> simp [hk, JobStatus.unfinished] at hrunning
  · exact Run.abortJobs_artifactSteps h

/-- **What an operation does to the artifact rows of a run**, a commit apart. -/
theorem Change.artifacts (h : Change s now call r r') :
    List.Forall₂ (ArtifactStep (r'.status.terminal = true) now) r.artifacts r'.artifacts ∨
      ∃ owner items, call = .commitArtifacts owner items ∧ owner.runID = r.id ∧
        r.commitArtifacts owner items now = .ok r' := by
  have hkeep : ∀ {l : List Artifact}, l = r.artifacts →
      List.Forall₂ (ArtifactStep (r'.status.terminal = true) now) r.artifacts l := by
    rintro l rfl
    exact List.forall₂_same.2 fun a _ => .keep a
  cases h with
  | grant runner lease =>
    refine .inl (hkeep ?_)
    unfold Run.grant Run.start
    split_ifs <;> rfl
  | @renew _ runner leases part =>
    obtain ⟨jobs, heq, -⟩ := r.renewAll_spec runner now part
    refine .inl (hkeep ?_)
    rw [heq]
    rfl
  | complete _ _ ok =>
    grind [Run.completedRows_artifacts, Run.complete_ok, Run.finalizeRun_artifactSteps]
  | expireLeases ok => exact .inl (Run.abortJobs_artifactSteps ok)
  | recover ok => exact .inl (Run.recover_artifactSteps ok)
  | cancelQueued _ ok =>
    obtain ⟨-, rfl⟩ := Run.cancelQueued_ok ok
    exact .inl (hkeep rfl)
  | requestCancel _ ok =>
    exact .inl (Run.finalizeRun_artifactSteps (r := r.cancelingRows now)
      (Run.requestCancel_ok ok).2)
  | @commitArtifacts _ _ owner items target ok => exact .inr ⟨owner, items, rfl, target, ok⟩
  | expireArtifacts =>
    refine .inl (Table.forall₂_updateWhere fun a _ => ?_)
    split_ifs with hexpiring
    · exact .delete hexpiring
    · exact .keep a

theorem Run.abortJobs_ending {p : Job → Bool} {message : String}
    (h : r.abortJobs s p now message = .ok r') (hopen : r.status.terminal = false)
    (hend : r'.status.terminal = true) : ∀ a ∈ r'.artifacts, a.expiresAt.isSome = true := by
  rcases Run.abortJobs_spec h with rfl | ⟨-, jobs, -, hfin⟩
  · rw [hopen] at hend
    cases hend
  · exact Run.finalizeRun_ending hfin hopen hend

/-- **The operation that ends a run stamps all its rows.**  Only a run that never
started ends in another way. -/
theorem Change.ending (h : Change s now call r r') (hremote : r.runnerID = none)
    (hopen : r.status.terminal = false) (hend : r'.status.terminal = true) :
    r.status = .queued ∨ ∀ a ∈ r'.artifacts, a.expiresAt.isSome = true := by
  have hsame : r'.status ≠ r.status := by
    intro hsame
    rw [hsame, hopen] at hend
    cases hend
  cases h with
  | grant runner lease =>
    rw [Run.grant_status hopen] at hend
    cases hend
  | @renew _ runner leases part =>
    obtain ⟨jobs, heq, -⟩ := r.renewAll_spec runner now part
    exact absurd (by rw [heq]; rfl) hsame
  | complete _ _ ok =>
    obtain ⟨jobs, -, hfin⟩ := Run.complete_spec ok
    exact .inr (Run.finalizeRun_ending hfin hopen hend)
  | expireLeases ok => exact .inr (Run.abortJobs_ending ok hopen hend)
  | recover ok => grind [Run.abandonLegacy, Run.recover, Run.abortJobs_ending]
  | cancelQueued _ ok => exact .inl (Run.cancelQueued_ok ok).1
  | requestCancel _ ok =>
    exact .inr (Run.finalizeRun_ending (r := r.cancelingRows now)
      (Run.requestCancel_ok ok).2 hopen hend)
  | commitArtifacts _ ok =>
    obtain ⟨_, rfl⟩ := Run.commitArtifacts_frame ok
    exact absurd rfl hsame
  | expireArtifacts => exact absurd rfl hsame

/-- What a successful commit leaves: the rows there were, and new ones for its
items when it found none. -/
theorem Run.commitArtifacts_artifacts {owner : Ownership} {items : List Artifact}
    (h : r.commitArtifacts owner items now = .ok r') :
    r'.artifacts = r.artifacts ∨
      r'.artifacts = r.artifacts ++ items.map (Artifact.stored owner) := by
  obtain ⟨-, -, -, -, -, -, -, -, -, -, -, ⟨-, rfl⟩ | ⟨-, rfl⟩⟩ := Run.commitArtifacts_ok h
  · exact .inr rfl
  · exact .inl rfl

/-- **Where live rows come from**: a row that is live after a request was live
before it, or is an item of a commit. -/
theorem Served.live_artifact {db db' : Database} {q : Request} (h : Served s db q db')
    (ha' : a' ∈ db'.artifacts) (hlive : a'.deletedAt = none) :
    (∃ a ∈ db.artifacts, a.deletedAt = none ∧ a.blobSHA256 = a'.blobSHA256) ∨
      ∃ owner items, q.call = .commitArtifacts owner items ∧
        ∃ item ∈ items, item.blobSHA256 = a'.blobSHA256 := by
  obtain ⟨r', hr', ha'⟩ := List.mem_flatMap.1 ha'
  have hold : ∀ r ∈ db.runs, a' ∈ r.artifacts → ∃ a ∈ db.artifacts, a.deletedAt = none ∧
      a.blobSHA256 = a'.blobSHA256 := fun r hr ha =>
    ⟨a', List.mem_flatMap.2 ⟨r, hr, ha⟩, hlive, rfl⟩
  rcases h.run_origin hr' with ⟨input, snapshot, -, -, rfl⟩ | ⟨r, hr, hstep⟩
  · cases ha'
  · rcases hstep with rfl | hchange | ⟨-, -, -, rfl⟩
    · exact .inl (hold _ hr ha')
    · rcases hchange.artifacts with hsteps | ⟨owner, items, hcall, -, hok⟩
      · obtain ⟨a, ha, hone⟩ := Table.exists_old hsteps ha'
        exact .inl ⟨a, List.mem_flatMap.2 ⟨r, hr, ha⟩, hone.live hlive,
          (congrArg Artifact.blobSHA256 hone.content).symm⟩
      · rcases Run.commitArtifacts_artifacts hok with heq | heq
        · exact .inl (hold r hr (heq ▸ ha'))
        · rw [heq, List.mem_append] at ha'
          rcases ha' with ha' | ha'
          · exact .inl (hold r hr ha')
          · obtain ⟨item, hitem, rfl⟩ := List.mem_map.1 ha'
            exact .inr ⟨owner, items, hcall, item, hitem, rfl⟩
    · exact .inl (hold r hr ha')

/-- `ExpireArtifacts` returns digests that no live row refers to. -/
theorem Served.removable {db db' : Database} {digests : List String} {digest : String}
    (hserved : Served s db ⟨now, .expireArtifacts⟩ db')
    (hreply : (db.serve s ⟨now, .expireArtifacts⟩).2 = .ok (.removable digests))
    (hdigest : digest ∈ digests) (ha : a ∈ db'.artifacts) (hblob : a.blobSHA256 = digest) :
    a.deletedAt ≠ none := by
  intro hlive
  obtain ⟨hrows, hremovable⟩ := Prod.mk.inj (Except.ok.inj (Database.serve_ok hreply))
  obtain rfl : _ = digests := Reply.removable.inj hremovable
  have hfree := (List.mem_filter.1 (mem_sortStrings.1 hdigest)).2
  have hafter : db'.toRows = (expireArtifacts now db.toRows).1 := by
    rw [← hserved, hrows]
  refine of_decide_eq_true hfree (List.mem_dedup.2 (List.mem_map.2 ⟨a, ?_, hblob⟩))
  rw [show db'.artifacts = Rows.artifacts _ from congrArg Rows.artifacts hafter] at ha
  exact List.mem_filter.2 ⟨ha, by simp [hlive]⟩

end Postgres
