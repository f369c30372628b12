import ForgeCI.ArtifactRows
import ForgeCI.LeaseEvents

/-!
# The artifact set of a job

A job declares its uploads in the pipeline.  `CommitArtifacts` records all of them
at once or nothing, `CompleteJob` admits `PASSED` only with the set recorded, the
operation that ends the run stamps the rows and `ExpireArtifacts` deletes them when
their time has come.
-/

namespace Postgres

open GoLib Traces

/-- The rows recorded for a job. -/
def Run.recorded (r : Run) (name : String) : List Artifact :=
  r.artifacts.filter (·.producerJob = name)

/-- The names and root names of the uploads of a job. -/
def declared (job : Config.Job) : List (String × String) :=
  job.artifacts.upload.map fun u => (u.name, base u.path)

/-- The set recorded for a job has one row for each upload it declares. -/
def Run.Complete (r : Run) (name : String) (job : Config.Job) : Prop :=
  ((r.recorded name).map fun a => (a.name, a.rootName)).Perm (declared job)

/-- What the artifact rows of a run satisfy. -/
structure Run.Published (r : Run) : Prop where
  started : ∀ a ∈ r.artifacts, ∃ j ∈ r.jobs, j.name = a.producerJob ∧ j.status ≠ .pending
  expiry : ∀ a ∈ r.artifacts, a.expiresAt = none ↔ r.status.terminal = false
  all_or_none : ∀ cfg, r.pipelineYAML = some cfg → ∀ name, r.recorded name = [] ∨
    ∃ job, cfg.job? name = some job ∧ r.Complete name job
  passed : ∀ cfg, r.pipelineYAML = some cfg → ∀ j ∈ r.jobs, j.status = .passed →
    ∃ job, cfg.job? j.name = some job ∧ r.Complete j.name job

variable {s : Settings} {now : Time} {call : Call} {r r' : Run} {j : Job} {a : Artifact}
variable {owner : Ownership} {items : List Artifact} {cfg : Config.Pipeline} {job : Config.Job}
variable {name : String}

theorem checkItems_ok {expected : List (String × String)} {seen : List String}
    (h : checkItems owner expected seen items = true) :
    (items.map Artifact.name).Nodup ∧ ∀ item ∈ items, item.name ∉ seen ∧
      ∃ root, expected.lookup item.name = some root ∧ item.acceptable owner root = true := by
  induction items generalizing seen with
  | nil => simp
  | cons item rest ih =>
    simp only [checkItems] at h
    split at h
    · cases h
    · rename_i root hroot
      simp only [Bool.and_eq_true, decide_eq_true_eq] at h
      obtain ⟨⟨hseen, hitem⟩, hrest⟩ := h
      obtain ⟨hnodup, hall⟩ := ih hrest
      have hnew : item.name ∉ rest.map Artifact.name := by
        intro hmem
        obtain ⟨other, hother, hname⟩ := List.mem_map.1 hmem
        exact (hall other hother).1 (hname ▸ List.mem_cons_self)
      refine ⟨List.nodup_cons.2 ⟨hnew, hnodup⟩, fun x hx => ?_⟩
      rcases List.mem_cons.1 hx with rfl | hx
      · exact ⟨hseen, root, hroot, hitem⟩
      · exact ⟨fun hmem => (hall x hx).1 (List.mem_cons_of_mem _ hmem), (hall x hx).2⟩

theorem checkItems_of_acceptable {expected : List (String × String)} {seen : List String}
    (hnodup : (items.map Artifact.name).Nodup) (h : ∀ item ∈ items, item.name ∉ seen ∧
      ∃ root, expected.lookup item.name = some root ∧ item.acceptable owner root = true) :
    checkItems owner expected seen items = true := by
  induction items generalizing seen with
  | nil => rfl
  | cons item rest ih =>
    obtain ⟨hseen, root, hroot, hitem⟩ := h item List.mem_cons_self
    obtain ⟨hnew, hnodup⟩ := List.nodup_cons.1 hnodup
    simp only [checkItems, hroot, Bool.and_eq_true, decide_eq_true_eq]
    refine ⟨⟨hseen, hitem⟩, ih hnodup fun x hx => ?_⟩
    obtain ⟨hxseen, hx'⟩ := h x (List.mem_cons_of_mem _ hx)
    refine ⟨fun hmem => ?_, hx'⟩
    rcases List.mem_cons.1 hmem with heq | hmem
    · exact hnew (heq ▸ List.mem_map_of_mem hx)
    · exact hxseen hmem

theorem Artifact.acceptable_iff {root : String} : a.acceptable owner root = true ↔
    a.producerJob = owner.jobName ∧ (a.runID = none ∨ a.runID = some owner.runID) ∧
      validDigest a.contentSHA256 = true ∧ validDigest a.blobSHA256 = true ∧
      a.format = "artifact-tar-gzip-v1" ∧ a.rootName = root ∧
      (a.rootKind = "file" ∨ a.rootKind = "directory") ∧
      0 ≤ a.archiveSizeBytes ∧ 0 ≤ a.logicalSizeBytes ∧ 1 ≤ a.entryCount := by
  simp [acceptable, and_assoc]

theorem declared_keys_nodup (hcfg : Config.Accepted cfg) (hjob : cfg.job? name = some job) :
    ((declared job).map Prod.fst).Nodup := by
  have hnodup := hcfg.uploads_nodup hjob
  simpa [declared, Function.comp_def] using hnodup

/-- **What a commit accepts is exactly what the job declares.** -/
theorem checkItems_perm (hkeys : ((declared job).map Prod.fst).Nodup)
    (hlen : items.length = (declared job).length)
    (h : checkItems owner (declared job) [] items = true) :
    (items.map fun a => (a.name, a.rootName)).Perm (declared job) := by
  obtain ⟨hnodup, hall⟩ := checkItems_ok h
  have hsubset : (items.map fun a => (a.name, a.rootName)) ⊆ declared job := by
    intro pair hpair
    obtain ⟨item, hitem, rfl⟩ := List.mem_map.1 hpair
    obtain ⟨-, root, hroot, hacceptable⟩ := hall item hitem
    rw [(Artifact.acceptable_iff.1 hacceptable).2.2.2.2.2.1]
    exact (Config.lookup_eq_some_iff hkeys).1 hroot
  have hpairs : (items.map fun a => (a.name, a.rootName)).Nodup := by grind
  exact (List.subperm_of_subset hpairs hsubset).perm_of_length_le (by simp [hlen])

theorem Run.recorded_content {ended : Prop}
    (h : List.Forall₂ (ArtifactStep ended now) r.artifacts r'.artifacts) (name : String) :
    (r'.recorded name).map Artifact.content = (r.recorded name).map Artifact.content := by
  have hfilter : ∀ l : List Artifact, (l.filter (·.producerJob = name)).map Artifact.content =
      (l.map Artifact.content).filter (·.producerJob = name) := by
    intro l
    rw [List.filter_map]
    rfl
  rw [recorded, recorded, hfilter, hfilter,
    Table.map_eq_of_forall₂ h fun _ _ hstep => hstep.content]

theorem Run.recorded_append_stored (l : List Artifact) :
    ({ r with artifacts := r.artifacts ++ l.map (Artifact.stored owner) } : Run).recorded name =
      r.recorded name ++ if name = owner.jobName then l.map (Artifact.stored owner) else [] := by
  rw [recorded, List.filter_append]
  congr 1
  split_ifs with hname
  · refine List.filter_eq_self.2 fun x hx => ?_
    grind [Artifact.stored]
  · refine List.filter_eq_nil_iff.2 fun x hx => ?_
    grind [Artifact.stored]

theorem Run.Complete.of_content (h : r.Complete name job)
    (hsame : (r'.recorded name).map Artifact.content = (r.recorded name).map Artifact.content) :
    r'.Complete name job := by
  have hpairs : ∀ l : List Artifact, (l.map fun a => (a.name, a.rootName)) =
      (l.map Artifact.content).map fun a => (a.name, a.rootName) := by
    intro l
    rw [List.map_map]
    rfl
  rw [Complete, hpairs, hsame, ← hpairs]
  exact h

/-- **A recorded set is never changed.** -/
theorem Change.recorded (h : Change s now call r r') (hne : r.recorded name ≠ []) :
    (r'.recorded name).map Artifact.content = (r.recorded name).map Artifact.content := by
  rcases h.artifacts with hsteps | ⟨owner, items, -, -, hok⟩
  · exact Run.recorded_content hsteps name
  · obtain ⟨-, -, -, -, -, -, -, -, -, -, -, ⟨hnil, rfl⟩ | ⟨-, rfl⟩⟩ := Run.commitArtifacts_ok hok
    · have hname : name ≠ owner.jobName := by
        rintro rfl
        exact hne hnil
      rw [Run.recorded_append_stored, if_neg hname, List.append_nil]
    · rfl

theorem CreateRun.row_published (now : Time) (input : CreateRun) (snapshot : SourceSnapshot) :
    (input.row now snapshot).Published where
  started a ha := by cases ha
  expiry a ha := by cases ha
  all_or_none _ _ _ := .inl rfl
  passed _ _ j hj hpassed := by
    rw [(CreateRun.row_pending hj).1] at hpassed
    cases hpassed

/-- A run that never started has no artifacts. -/
theorem Run.Published.of_queued (h : r.Published) (hsched : r.Scheduled)
    (hqueued : r.status = .queued) : r.artifacts = [] := by
  refine List.eq_nil_iff_forall_not_mem.2 fun a ha => ?_
  grind [h.started, hsched.queued_pending]

/-- Where the artifact rows come from: from a row of the same job, or from a commit
while the job is running. -/
theorem Change.producer (h : Change s now call r r') (ha : a ∈ r'.artifacts) :
    (∃ b ∈ r.artifacts, b.producerJob = a.producerJob) ∨
      ∃ j ∈ r.jobs, j.name = a.producerJob ∧ j.status = .running := by
  rcases h.artifacts with hsteps | ⟨owner, items, -, -, hok⟩
  · obtain ⟨b, hb, hstep⟩ := Table.exists_old hsteps ha
    exact .inl ⟨b, hb, (congrArg Artifact.producerJob hstep.content).symm⟩
  · obtain ⟨-, j, -, -, hj, hrunning, -, -, -, -, -, hrows⟩ := Run.commitArtifacts_ok hok
    obtain ⟨hmem, hname⟩ := Table.row?_some hj
    rcases hrows with ⟨-, rfl⟩ | ⟨-, rfl⟩
    · rcases List.mem_append.1 ha with ha | ha
      · exact .inl ⟨a, ha, rfl⟩
      · obtain ⟨item, -, rfl⟩ := List.mem_map.1 ha
        exact .inr ⟨j, hmem, hname, hrunning⟩
    · exact .inl ⟨a, ha, rfl⟩

theorem Change.started (h : Change s now call r r') (hkey : (r.jobs.map Job.name).Nodup)
    (hpub : r.Published) (ha : a ∈ r'.artifacts) :
    ∃ j ∈ r'.jobs, j.name = a.producerJob ∧ j.status ≠ .pending := by
  obtain ⟨j, hj, hname, hstarted⟩ : ∃ j ∈ r.jobs, j.name = a.producerJob ∧ j.status ≠ .pending := by
    grind [h.producer, hpub.started]
  obtain ⟨j', hj', hstep⟩ := Table.exists_new (h.jobs hkey) hj
  refine ⟨j', hj', hstep.name_eq.trans hname, fun hpending => hstarted ?_⟩
  rw [← hstep.pending hpending]
  exact hpending

/-- A row has an expiry time exactly when its run has ended. -/
theorem Change.expiry (h : Change s now call r r') (hsched : r.Scheduled) (hpub : r.Published)
    (ha : a ∈ r'.artifacts) : a.expiresAt = none ↔ r'.status.terminal = false := by
  have hopen : r'.status.terminal = false → r.status.terminal = false := by grind [h.terminal]
  rcases h.artifacts with hsteps | ⟨owner, items, -, -, hok⟩
  · obtain ⟨b, hb, hstep⟩ := Table.exists_old hsteps ha
    cases hend : r'.status.terminal with
    | false => grind [hpub.expiry, hstep.fresh]
    | true =>
      have hstamped : a.expiresAt.isSome = true := by
        cases hactive : r.status.terminal with
        | true =>
          refine hstep.stamped (Option.isSome_iff_ne_none.2 fun hnone => ?_)
          grind [hpub.expiry]
        | false => grind [h.ending, hsched.remote, hpub.of_queued]
      simpa using Option.isSome_iff_ne_none.1 hstamped
  · obtain ⟨hrunning, -, -, -, -, -, -, -, -, -, -, hrows⟩ := Run.commitArtifacts_ok hok
    have hactive : r.status.terminal = false := by rw [hrunning]; rfl
    rcases hrows with ⟨-, rfl⟩ | ⟨-, rfl⟩
    · rcases List.mem_append.1 ha with ha | ha
      · exact hpub.expiry a ha
      · obtain ⟨item, -, rfl⟩ := List.mem_map.1 ha
        exact ⟨fun _ => hactive, fun _ => rfl⟩
    · exact hpub.expiry a ha

/-- The set of a job stays empty or complete. -/
theorem Change.all_or_none (h : Change s now call r r') (hbuilt : r.Built cfg)
    (hpub : r.Published) (name : String) :
    r'.recorded name = [] ∨ ∃ job, cfg.job? name = some job ∧ r'.Complete name job := by
  by_cases hne : r.recorded name = []
  · rcases h.artifacts with hsteps | ⟨owner, items, -, -, hok⟩
    · have hsame := Run.recorded_content hsteps name
      rw [hne, List.map_nil, List.map_eq_nil_iff] at hsame
      exact .inl hsame
    · obtain ⟨-, -, cfg', job, -, -, -, hparse, hjob, hlen, hitems, hrows⟩ :=
        Run.commitArtifacts_ok hok
      obtain rfl : cfg' = cfg := by
        have hyaml := (parseBytes_ok hparse).1
        grind [hbuilt.yaml]
      rcases hrows with ⟨-, rfl⟩ | ⟨-, rfl⟩
      · by_cases hname : name = owner.jobName
        · subst hname
          have hkeys := declared_keys_nodup (Config.accepted_of_validate hbuilt.accepted) hjob
          have hperm := checkItems_perm hkeys (by simpa [declared] using hlen) hitems
          refine .inr ⟨job, hjob, ?_⟩
          rw [Run.Complete, Run.recorded_append_stored, hne, if_pos rfl, List.nil_append,
            List.map_map]
          exact hperm
        · grind [Run.recorded_append_stored]
      · exact .inl hne
  · obtain ⟨job, hjob, hcomplete⟩ := (hpub.all_or_none cfg hbuilt.yaml name).resolve_left hne
    exact .inr ⟨job, hjob, hcomplete.of_content (h.recorded hne)⟩

theorem Run.abortJobs_passed {p : Job → Bool} {message : String}
    (h : r.abortJobs s p now message = .ok r') (hj : j ∈ r'.jobs) (hpassed : j.status = .passed) :
    j ∈ r.jobs := by
  rcases Run.abortJobs_spec h with rfl | ⟨-, jobs, hblocks, hfin⟩
  · exact hj
  · rw [Run.finalizeRun_jobs hfin] at hj
    obtain ⟨k', hk', rfl | ⟨-, rfl⟩⟩ := Table.exists_old hblocks hj
    · obtain ⟨k, hk, rfl⟩ := Table.mem_updateWhere.1 hk'
      split_ifs at hpassed ⊢
      · simp at hpassed
      · exact hk
    · simp at hpassed

/-- **A job passes only through the gate of `CompleteJob`.** -/
theorem Change.passed (h : Change s now call r r') (hremote : r.runnerID = none)
    (hj : j ∈ r'.jobs) (hpassed : j.status = .passed) :
    j ∈ r.jobs ∨ r.passGate s j.name .passed = .ok () := by
  have hrows : ∀ {p : Job → Bool} {f : Job → Job}, (∀ k, (f k).status ≠ .passed) →
      j ∈ Table.updateWhere p f r.jobs → j ∈ r.jobs := by grind [Table.mem_updateWhere]
  cases h with
  | grant runner lease =>
    rw [Run.grant_jobs] at hj
    exact .inl (hrows (fun k => by simp) hj)
  | @renew _ runner leases part =>
    obtain ⟨jobs, heq, hjobs⟩ := r.renewAll_spec runner now part
    rw [heq] at hj
    obtain ⟨k, hk, rfl | ⟨l, -, -, hholds, rfl⟩⟩ := Table.exists_old hjobs hj
    · exact .inl hk
    · rw [Job.renew_status, Job.holdsLease_running hholds] at hpassed
      cases hpassed
  | complete _ _ ok =>
    obtain ⟨-, -, -, hgate, hfin⟩ := Run.complete_ok ok
    rw [Run.finalizeRun_jobs hfin] at hj
    obtain ⟨k, hk, ⟨hname, rfl⟩ | ⟨-, rfl⟩⟩ :=
      Run.completedRows_unblocked hj (by simp [hpassed])
    · obtain rfl : _ = JobStatus.passed := hpassed
      grind [Job.releaseLease_name, Job.finish_name]
    · exact .inl hk
  | expireLeases ok => exact .inl (Run.abortJobs_passed ok hj hpassed)
  | recover ok => grind [Run.abandonLegacy, Run.recover, Run.abortJobs_passed]
  | cancelQueued _ ok =>
    obtain ⟨-, rfl⟩ := Run.cancelQueued_ok ok
    exact .inl (hrows (fun k => by simp) hj)
  | requestCancel _ ok =>
    rw [Run.finalizeRun_jobs (Run.requestCancel_ok ok).2] at hj
    exact .inl (hrows (fun k => by simp) hj)
  | commitArtifacts _ ok =>
    obtain ⟨_, rfl⟩ := Run.commitArtifacts_frame ok
    exact .inl hj
  | expireArtifacts => exact .inl hj

/-- Behind the gate the set of the job is complete. -/
theorem Run.Published.of_passGate (h : r.Published) (hbuilt : r.Built cfg)
    (hgate : r.passGate s name .passed = .ok ()) :
    ∃ job, cfg.job? name = some job ∧ r.Complete name job := by
  have hparse : parseBytes r.pipelineYAML = .ok cfg := by
    rw [hbuilt.yaml, parseBytes, hbuilt.accepted]
  rw [Run.passGate, if_pos rfl, Run.artifactSetCommitted, hparse] at hgate
  cases hjob : cfg.job? name with
  | none => simp [hjob] at hgate
  | some job =>
    refine ⟨job, rfl, ?_⟩
    rcases h.all_or_none cfg hbuilt.yaml name with hnil | ⟨job', hjob', hcomplete⟩
    · have hnone :
          (r.artifacts.filter fun a => a.producerJob = name && a.deletedAt.isNone) = [] := by
        refine List.filter_eq_nil_iff.2 fun a ha hsel => ?_
        have hmem : a ∈ r.recorded name :=
          List.mem_filter.2 ⟨ha, (Bool.and_eq_true_iff.1 hsel).1⟩
        rw [hnil] at hmem
        cases hmem
      have hempty : job.artifacts.upload = [] := by
        by_contra hne
        simp [hjob, hnone, hne] at hgate
      rw [Run.Complete, hnil, declared, hempty]
      exact .refl _
    · grind

/-- **One operation keeps the invariant.** -/
theorem Change.published (h : Change s now call r r') (hkey : (r.jobs.map Job.name).Nodup)
    (hsched : r.Scheduled) (hpub : r.Published) : r'.Published := by
  obtain ⟨cfg₀, hbuilt⟩ := hsched.built
  have hyaml : ∀ cfg, r'.pipelineYAML = some cfg → cfg₀ = cfg := by
    intro cfg hcfg
    rw [h.static.pipelineYAML, hbuilt.yaml] at hcfg
    exact Option.some.inj hcfg
  refine ⟨fun a ha => h.started hkey hpub ha, fun a ha => h.expiry hsched hpub ha, ?_, ?_⟩
  · intro cfg hcfg name
    obtain rfl := hyaml cfg hcfg
    exact h.all_or_none hbuilt hpub name
  · intro cfg hcfg j hj hpassed
    obtain rfl := hyaml cfg hcfg
    obtain ⟨job, hjob, hcomplete⟩ : ∃ job, cfg₀.job? j.name = some job ∧ r.Complete j.name job := by
      rcases h.passed hsched.remote hj hpassed with hold | hgate
      · exact hpub.passed cfg₀ hbuilt.yaml j hold hpassed
      · exact hpub.of_passGate hbuilt hgate
    refine ⟨job, hjob, ?_⟩
    by_cases hne : r.recorded j.name = []
    · rcases h.all_or_none hbuilt hpub j.name with hnil | ⟨job', hjob', hcomplete'⟩
      · rw [Run.Complete, hne] at hcomplete
        rw [Run.Complete, hnil]
        exact hcomplete
      · obtain rfl : job' = job := Option.some.inj (hjob'.symm.trans hjob)
        exact hcomplete'
    · exact hcomplete.of_content (h.recorded hne)

theorem Run.Published.supersede (h : r.Published) (hsched : r.Scheduled)
    (hactive : r.status.terminal = false) : (r.supersede now).Published where
  started := h.started
  expiry := by grind [h.of_queued, h.expiry, RunStatus.terminal_eq_false_iff, Run.supersede]
  all_or_none := h.all_or_none
  passed := h.passed

/-- **Every reachable run is published.** -/
theorem Reaches.published {tr : List (Step Database Request)} {db : Database}
    (h : Reaches s tr db) (hok : ∀ st ∈ tr, st.act.Accepted) :
    ∀ r ∈ db.runs, r.Scheduled ∧ r.Published := by
  intro r hr
  refine (h.runs (fun r => r.Scheduled ∧ r.Published) (fun _ => True) ?_ ?_ ?_ hok r hr).1
  · intro q input snapshot hq hcreates _ _
    obtain ⟨cfg, hcfg⟩ := hq input hcreates
    exact ⟨⟨hcfg.scheduled q.now snapshot, CreateRun.row_published q.now input snapshot⟩, trivial⟩
  · intro now call r r' hkey hr hchange
    exact ⟨⟨(hchange.scheduled hkey hr.1).1, hchange.published hkey hr.1 hr.2⟩, fun _ => trivial⟩
  · exact fun now r hr hactive => ⟨hr.1.supersede hactive, hr.2.supersede hr.1 hactive⟩

/-- The columns that `sameArtifactSet` compares, and the name. -/
def Artifact.payload (a : Artifact) : Artifact :=
  { a with
    runID := none
    producerJob := ""
    createdAt := 0
    expiresAt := none
    deletedAt := none }

/-- The items of a commit are the rows recorded for the job, in some order. -/
def Run.Matches (r : Run) (name : String) (items : List Artifact) : Prop :=
  ((r.recorded name).map Artifact.payload).Perm (items.map Artifact.payload)

/-- The item is said to be of this run and job. -/
def Artifact.BelongsTo (owner : Ownership) (item : Artifact) : Prop :=
  item.producerJob = owner.jobName ∧ (item.runID = none ∨ item.runID = some owner.runID)

theorem Artifact.payload_eq_iff {x y : Artifact} :
    x.payload = y.payload ↔ x.name = y.name ∧ x.sameContent y = true := by
  simp [payload, sameContent, and_assoc]

theorem names_of_payload (l : List Artifact) :
    (l.map Artifact.payload).map Artifact.name = l.map Artifact.name := by
  rw [List.map_map]
  rfl

/-- `sameArtifactSet` on rows of distinct names is equality of sets. -/
theorem sameArtifactSet_iff {l : List Artifact} (hl : (l.map Artifact.name).Nodup) :
    sameArtifactSet l items = true ↔
      (l.map Artifact.payload).Perm (items.map Artifact.payload) := by
  simp only [sameArtifactSet, Bool.and_eq_true, decide_eq_true_eq, List.all_eq_true,
    Option.any_eq_true]
  constructor
  · rintro ⟨hlen, hall⟩
    have hsubset : l.map Artifact.payload ⊆ items.map Artifact.payload := by
      intro z hz
      obtain ⟨x, hx, rfl⟩ := List.mem_map.1 hz
      obtain ⟨y, hy, hsame⟩ := hall x hx
      have hname : y.name = x.name := by simpa using List.find?_some hy
      refine List.mem_map.2 ⟨y, List.mem_reverse.1 (List.mem_of_find?_eq_some hy), ?_⟩
      exact (Artifact.payload_eq_iff.2 ⟨hname.symm, hsame⟩).symm
    have hnodup : (l.map Artifact.payload).Nodup :=
      List.Nodup.of_map Artifact.name (by rwa [names_of_payload])
    exact (List.subperm_of_subset hnodup hsubset).perm_of_length_le (by simp [hlen])
  · intro hperm
    refine ⟨by simpa using hperm.length_eq, fun x hx => ?_⟩
    obtain ⟨y, hy, hpayload⟩ := List.mem_map.1 (hperm.mem_iff.1 (List.mem_map_of_mem hx))
    obtain ⟨hname, hsame⟩ := Artifact.payload_eq_iff.1 hpayload.symm
    have hkeys : (items.reverse.map Artifact.name).Nodup := by
      rw [List.map_reverse, List.nodup_reverse, ← names_of_payload items,
        ← (hperm.map Artifact.name).nodup_iff, names_of_payload]
      exact hl
    exact ⟨y, (Table.row?_eq_some_iff hkeys).2 ⟨List.mem_reverse.2 hy, hname.symm⟩, hsame⟩

/-- The key of the table of artifacts, for the rows of one job. -/
theorem Run.Constraints.recorded_names (h : r.Constraints) (name : String) :
    ((r.recorded name).map Artifact.name).Nodup := by
  have hkey := h.artifacts_key.sublist (List.filter_sublist (p := (·.producerJob = name)) |>.map _)
  refine List.Nodup.of_map (fun n => (name, n)) ?_
  rw [List.map_map]
  refine (List.map_congr_left fun a ha => ?_) ▸ hkey
  simp [(of_decide_eq_true (List.mem_filter.1 ha).2 : a.producerJob = name)]

theorem validDigest_of_hexDigest {text : String} (h : hexDigest text = true) :
    validDigest text = true := by
  simp only [hexDigest, validDigest, Bool.and_eq_true, List.all_eq_true] at h ⊢
  grind

/-- An item with the payload of a stored row passes the metadata test. -/
theorem Artifact.acceptable_of_payload {item : Artifact} (hbelongs : item.BelongsTo owner)
    (hpayload : item.payload = a.payload) (hchecked : a.checked = true) :
    item.acceptable owner a.rootName = true := by
  simp only [payload, Artifact.mk.injEq, true_and, and_true] at hpayload
  obtain ⟨-, hroot, hkind, hcontent, hblob, hformat, harchive, hlogical, hentries⟩ := hpayload
  simp only [checked, Bool.and_eq_true, Bool.or_eq_true, decide_eq_true_eq] at hchecked
  obtain
    ⟨⟨⟨⟨⟨⟨⟨⟨-, hkind'⟩, hcontent'⟩, hblob'⟩, hformat'⟩, harchive'⟩, hlogical'⟩, hentries'⟩, -⟩ :=
    hchecked
  rw [Artifact.acceptable_iff, hcontent, hblob, hformat, hroot, hkind, harchive, hlogical, hentries]
  exact ⟨hbelongs.1, hbelongs.2, validDigest_of_hexDigest hcontent',
    validDigest_of_hexDigest hblob', hformat', rfl, hkind', harchive', hlogical', hentries'⟩

/-- **An identical commit succeeds and writes nothing.** -/
theorem Run.commitArtifacts_again (hsched : r.Scheduled) (hpub : r.Published)
    (hcon : r.Constraints) (hj : r.job? owner.jobName = some j)
    (hholds : j.holdsLease owner now = true) (hne : r.recorded owner.jobName ≠ [])
    (hbelongs : ∀ item ∈ items, item.BelongsTo owner) (hmatch : r.Matches owner.jobName items) :
    r.commitArtifacts owner items now = .ok r := by
  obtain ⟨cfg, hbuilt⟩ := hsched.built
  obtain ⟨job, hjob, hcomplete⟩ :=
    (hpub.all_or_none cfg hbuilt.yaml owner.jobName).resolve_left hne
  have hkeys := declared_keys_nodup (Config.accepted_of_validate hbuilt.accepted) hjob
  have hrow : ∀ item ∈ items, ∃ a ∈ r.recorded owner.jobName, item.payload = a.payload := by
    intro item hitem
    obtain ⟨a, ha, heq⟩ := List.mem_map.1 (hmatch.mem_iff.2 (List.mem_map_of_mem hitem))
    exact ⟨a, ha, heq.symm⟩
  have hnames : (items.map Artifact.name).Nodup := by
    rw [← names_of_payload, ← (hmatch.map Artifact.name).nodup_iff, names_of_payload]
    exact hcon.recorded_names _
  have hcheck : checkItems owner (declared job) [] items = true := by
    refine checkItems_of_acceptable hnames fun item hitem => ⟨List.not_mem_nil, ?_⟩
    obtain ⟨a, ha, hpayload⟩ := hrow item hitem
    have hdeclared : (a.name, a.rootName) ∈ declared job :=
      hcomplete.mem_iff.1 (List.mem_map.2 ⟨a, ha, rfl⟩)
    rw [(Artifact.payload_eq_iff.1 hpayload).1]
    exact ⟨a.rootName, (Config.lookup_eq_some_iff hkeys).2 hdeclared,
      Artifact.acceptable_of_payload (hbelongs item hitem) hpayload
        (hcon.artifacts_checked a (List.mem_filter.1 ha).1)⟩
  have hlen : items.length = (declared job).length := by
    rw [← hcomplete.length_eq, List.length_map]
    simpa using hmatch.length_eq.symm
  obtain ⟨runner, lease, expires, hrunner, hlease, hjr, hjl, hgen, hrunning, hexpires, hlt⟩ :=
    Job.holdsLease_iff.1 hholds
  have hlease : j.leaseMatches owner now = some true := by
    simp [Job.leaseMatches, and3_eq_true, hrunner, hlease, hjr, hjl, hgen, hexpires, hlt]
  have hactive := hsched.running (Table.row?_some hj).1 hrunning
  have hparse : parseBytes r.pipelineYAML = .ok cfg := by
    rw [hbuilt.yaml, parseBytes, hbuilt.accepted]
  have hsame := (sameArtifactSet_iff (hcon.recorded_names owner.jobName)).2 hmatch
  rw [Run.recorded] at hsame hne
  rw [declared] at hcheck hlen
  simp only [Run.commitArtifacts, hactive, ne_eq, not_true_eq_false, if_false, hj, hrunner,
    reduceCtorEq, hlease, hrunning, or_self, hparse, hjob, hlen, hcheck, hne, hsame,
    Bool.true_eq_false, if_true]

variable {t t' : Rows} {db db' : Database} {st : Step Database Request}
variable {tr : List (Step Database Request)}

/-- **A commit for a job with a recorded set changes nothing**, and succeeds only
with the same set. -/
theorem Served.recommit (hserved : Served s st.before st.act st.after)
    (hcall : st.act.call = .commitArtifacts owner items)
    (hr : st.before.run? owner.runID = some r) (hne : r.recorded owner.jobName ≠ []) :
    st.after = st.before ∧ ((∃ x, reply s st = .ok x) → r.Matches owner.jobName items) := by
  cases hreply : reply s st with
  | error e =>
    refine ⟨hserved.of_error hreply, ?_⟩
    rintro ⟨x, hx⟩
    cases hx
  | ok x =>
    have hexec := Database.serve_ok hreply
    rw [hcall] at hexec
    obtain ⟨r₁, r₂, hr₁, hok, hrows⟩ := Rows.onRun_ok (map_done hexec).1
    obtain rfl : r = r₁ := Option.some.inj (hr.symm.trans hr₁)
    obtain ⟨hmem, -⟩ := Table.row?_some hr
    obtain ⟨-, -, -, -, -, -, -, -, -, -, -, ⟨hnil, -⟩ | ⟨hsame, rfl⟩⟩ :=
      Run.commitArtifacts_ok hok
    · exact absurd hnil hne
    · constructor
      · refine Database.eq_of_rows ?_
        rw [← hserved, hrows, Rows.putRun, Table.replace_self st.before.valid.runs_key hmem]
      · intro _
        have hcon := st.before.valid.runs r₂ hmem
        exact (sameArtifactSet_iff (hcon.recorded_names owner.jobName)).1 hsame

/-- An identical commit by the holder of the lease succeeds. -/
theorem Reaches.recommit (h : Reaches s tr st.before) (hok : ∀ st ∈ tr, st.act.Accepted)
    (hcall : st.act.call = .commitArtifacts owner items)
    (hr : st.before.run? owner.runID = some r) (hne : r.recorded owner.jobName ≠ [])
    (hleased : st.before.Leased st.act.now owner)
    (hbelongs : ∀ item ∈ items, item.BelongsTo owner) (hmatch : r.Matches owner.jobName items) :
    reply s st = .ok .done := by
  obtain ⟨hmem, hid⟩ := Table.row?_some hr
  obtain ⟨r₁, hr₁, j, hj, hid₁, hname, hholds⟩ := hleased
  obtain rfl : r₁ = r :=
    List.inj_on_of_nodup_map st.before.valid.runs_key hr₁ hmem (hid₁.trans hid.symm)
  obtain ⟨hsched, hpub⟩ := h.published hok r₁ hmem
  have hcon := st.before.valid.runs r₁ hmem
  have hagain := Run.commitArtifacts_again hsched hpub hcon
    ((Table.row?_eq_some_iff hcon.jobs_key).2 ⟨hj, hname⟩) hholds hne hbelongs hmatch
  have hrows : commitArtifacts st.act.now owner items st.before.toRows = .ok st.before.toRows := by
    simp only [commitArtifacts, Rows.onRun, hr, hagain, Rows.putRun,
      Table.replace_self st.before.valid.runs_key hmem]
  have hvalid := st.before.valid
  simp only [reply, Database.serve, hcall, exec, hrows, Except.map, Database.commit, hvalid,
    dif_pos]

/-- A recorded set stays as it is for the rest of the run of the system. -/
theorem recorded_for_good (h : Trace (Served s) db tr db') (hr : r ∈ db.runs)
    (hne : r.recorded name ≠ []) : ∃ r' ∈ db'.runs, r'.id = r.id ∧
      (r'.recorded name).map Artifact.content = (r.recorded name).map Artifact.content := by
  refine Served.run_persists (P := fun r' =>
    (r'.recorded name).map Artifact.content = (r.recorded name).map Artifact.content) ?_ h hr rfl
  intro db₁ q r₁ r₂ hr₁ hstep hsame₁
  have hne₁ : r₁.recorded name ≠ [] := by
    intro hnil
    rw [hnil, List.map_nil] at hsame₁
    exact hne (List.map_eq_nil_iff.1 hsame₁.symm)
  rcases hstep with rfl | hchange | ⟨-, -, -, rfl⟩
  · exact hsame₁
  · exact (hchange.recorded hne₁).trans hsame₁
  · exact hsame₁

/-- **The life of the artifact sets** along a run of the system that ends in
`db`. -/
structure ArtifactSets (s : Settings) (tr : List (Step Database Request)) (db : Database) :
    Prop where
  /-- A job has no row, or one for each upload it declares. -/
  all_or_none : ∀ r ∈ db.runs, ∃ cfg, r.Built cfg ∧ ∀ name, r.recorded name = [] ∨
    ∃ job, cfg.job? name = some job ∧ r.Complete name job
  /-- Recorded rows never change in what they are about. -/
  recorded : ∀ pre post middle, tr = pre ++ post → Reaches s pre middle →
    ∀ r ∈ middle.runs, ∀ name, r.recorded name ≠ [] → ∃ r' ∈ db.runs, r'.id = r.id ∧
      (r'.recorded name).map Artifact.content = (r.recorded name).map Artifact.content
  /-- A second commit changes nothing and succeeds with the same set only; with the
  same set, the holder of the lease does succeed. -/
  recommit : ∀ st ∈ tr, ∀ owner items r, st.act.call = .commitArtifacts owner items →
    st.before.run? owner.runID = some r → r.recorded owner.jobName ≠ [] →
    st.after = st.before ∧
      ((∃ x, reply s st = .ok x) → r.Matches owner.jobName items) ∧
      (st.before.Leased st.act.now owner → (∀ item ∈ items, item.BelongsTo owner) →
        r.Matches owner.jobName items → reply s st = .ok .done)
  /-- A request that fails changes nothing. -/
  failed : ∀ st ∈ tr, (∃ e, reply s st = .error e) → st.after = st.before
  /-- A passed job of a run that has not ended has its whole set. -/
  passed : ∀ r ∈ db.runs, r.status.terminal = false → ∀ j ∈ r.jobs, j.status = .passed →
    ∃ cfg job, r.pipelineYAML = some cfg ∧ cfg.job? j.name = some job ∧
      r.Complete j.name job ∧ ∀ a ∈ r.recorded j.name, a.deletedAt = none
  /-- A row has no expiry time exactly while its run has not ended. -/
  expiry : ∀ r ∈ db.runs, ∀ a ∈ r.artifacts, a.expiresAt = none ↔ r.status.terminal = false
  /-- No row of a run that has not ended is deleted. -/
  live : ∀ r ∈ db.runs, r.status.terminal = false → ∀ a ∈ r.artifacts, a.deletedAt = none
  /-- `ExpireArtifacts` returns digests that no live row refers to. -/
  removable : ∀ st ∈ tr, ∀ digests, st.act.call = .expireArtifacts →
    reply s st = .ok (.removable digests) → ∀ digest ∈ digests, ∀ a ∈ st.after.artifacts,
      a.blobSHA256 = digest → a.deletedAt ≠ none

/-- No row of a run that has not ended is deleted. -/
theorem Run.Published.live (h : r.Published) (hcon : r.Constraints)
    (hactive : r.status.terminal = false) (ha : a ∈ r.artifacts) : a.deletedAt = none := by
  have hchecked := hcon.artifacts_checked a ha
  rw [Artifact.checked, Bool.and_eq_true, (h.expiry a ha).2 hactive] at hchecked
  simpa using hchecked.2

/-- **The artifact sets of every run built from an accepted pipeline keep to their
life**, whatever requests are served. -/
theorem artifact_sets (h : Reaches s tr db) (hok : ∀ st ∈ tr, st.act.Accepted) :
    ArtifactSets s tr db where
  all_or_none r hr := by
    obtain ⟨hsched, hpub⟩ := h.published hok r hr
    obtain ⟨cfg, hbuilt⟩ := hsched.built
    exact ⟨cfg, hbuilt, hpub.all_or_none cfg hbuilt.yaml⟩
  recorded pre post middle htr hpre r hr name hne := by
    subst htr
    exact recorded_for_good (h.rest hpre) hr hne
  recommit st hst owner items r hcall hr hne := by
    obtain ⟨pre, post, rfl⟩ := List.append_of_mem hst
    obtain ⟨hpre, hserved, -⟩ := h.split
    obtain ⟨hsame, hmatch⟩ := Served.recommit hserved hcall hr hne
    have hok' : ∀ st ∈ pre, st.act.Accepted := fun st hst => hok st (List.mem_append_left _ hst)
    exact ⟨hsame, hmatch, fun hleased hbelongs hmatches =>
      Reaches.recommit hpre hok' hcall hr hne hleased hbelongs hmatches⟩
  failed st hst := by
    rintro ⟨e, he⟩
    obtain ⟨-, -, hserved⟩ := h.step_of_mem hst
    exact hserved.of_error he
  passed r hr hactive j hj hpassed := by
    obtain ⟨hsched, hpub⟩ := h.published hok r hr
    obtain ⟨cfg, hbuilt⟩ := hsched.built
    obtain ⟨job, hjob, hcomplete⟩ := hpub.passed cfg hbuilt.yaml j hj hpassed
    exact ⟨cfg, job, hbuilt.yaml, hjob, hcomplete, fun a ha =>
      hpub.live (db.valid.runs r hr) hactive (List.mem_filter.1 ha).1⟩
  expiry r hr := (h.published hok r hr).2.expiry
  live r hr hactive a ha := (h.published hok r hr).2.live (db.valid.runs r hr) hactive ha
  removable st hst digests hcall hreply digest hdigest a ha hblob := by
    obtain ⟨-, -, hserved⟩ := h.step_of_mem hst
    obtain ⟨before, ⟨now, call⟩, after⟩ := st
    obtain rfl : call = .expireArtifacts := hcall
    exact hserved.removable hreply hdigest ha hblob

/-- A pipeline whose first job has published, been completed and handed over to the
second. -/
def Sample.handover : List Request :=
  [⟨0, .createRun (submission 1 Sample.chain Sample.chainGraph 1 (some Sample.snapshot))⟩,
    ⟨1, .registerRunner Sample.runner⟩, ⟨2, .leaseJob 7 100⟩,
    ⟨3, .commitArtifacts Sample.owner [Sample.dist]⟩,
    ⟨4, .commitArtifacts Sample.owner [Sample.dist]⟩,
    ⟨5, .completeJob Sample.owner .passed none⟩, ⟨6, .leaseJob 7 101⟩, ⟨7, .expireArtifacts⟩]

theorem Sample.handover_accepted : ∀ q ∈ Sample.handover, q.Accepted := by
  intro q hq input hinput
  simp only [Sample.handover, List.mem_cons, List.not_mem_nil, or_false] at hq
  rcases hq with rfl | rfl | rfl | rfl | rfl | rfl | rfl | rfl
  · obtain rfl : _ = input := Option.some.inj hinput
    exact ⟨Sample.chain, Sample.chain_accepted.1, Sample.chainGraph, Sample.chain_accepted.2, rfl⟩
  all_goals cases hinput

/-- The set of the first job is recorded, and lives as it should. -/
theorem handover_artifact_sets :
    (Database.empty.after Sample.settings Sample.handover).artifacts.map Artifact.name = ["dist"] ∧
      ArtifactSets Sample.settings (Database.empty.record Sample.settings Sample.handover)
        (Database.empty.after Sample.settings Sample.handover) :=
  ⟨by decide +kernel, artifact_sets (Database.record_trace _ _ _)
    fun _ hst => Sample.handover_accepted _ (Database.act_mem_of_record hst)⟩

end Postgres
