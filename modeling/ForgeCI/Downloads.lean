import ForgeCI.ArtifactSets

/-!
# Downloads of a leased job

A job declares the artifacts it downloads, each from a job it needs.  By the time
it is leased these jobs have passed, so their sets are recorded, and none of their
rows can expire before the run has ended: `GetArtifactForLease` finds every one of
them, and nothing of a job that is not needed.
-/

namespace Postgres

open GoLib Traces

variable {s : Settings} {now : Time} {call : Call} {r r' : Run} {j : Job} {a : Artifact}
variable {owner : Ownership} {cfg : Config.Pipeline} {job : Config.Job} {producer : String}
variable {db : Database} {tr : List (Step Database Request)}

/-- The step committed the row for its job. -/
def Commits (s : Settings) (st : Step Database Request) (run : Uuid) (a : Artifact) : Prop :=
  ∃ owner items, st.act.call = .commitArtifacts owner items ∧ reply s st = .ok .done ∧
    owner.runID = run ∧ owner.jobName = a.producerJob ∧
    ∃ item ∈ items, a.content = item.stored owner

/-- A row after a change was there before, or is an item of the commit. -/
theorem Change.row_origin (h : Change s now call r r') (ha : a ∈ r'.artifacts) :
    (∃ b ∈ r.artifacts, a.content = b.content) ∨
      ∃ owner items, call = .commitArtifacts owner items ∧ owner.runID = r.id ∧
        ∃ item ∈ items, a.content = item.stored owner := by
  rcases h.artifacts with hsteps | ⟨owner, items, hcall, htarget, hok⟩
  · obtain ⟨b, hb, hstep⟩ := Table.exists_old hsteps ha
    exact .inl ⟨b, hb, hstep.content⟩
  · rcases Run.commitArtifacts_artifacts hok with heq | heq
    · exact .inl ⟨a, heq ▸ ha, rfl⟩
    · rw [heq] at ha
      rcases List.mem_append.1 ha with ha | ha
      · exact .inl ⟨a, ha, rfl⟩
      · obtain ⟨item, hitem, rfl⟩ := List.mem_map.1 ha
        exact .inr ⟨owner, items, hcall, htarget, item, hitem, rfl⟩

/-- **Every row was committed by its job in its run.** -/
theorem Reaches.committed (h : Reaches s tr db) : ∀ r ∈ db.runs, ∀ a ∈ r.artifacts,
    ∃ st ∈ tr, Commits s st r.id a := by
  induction h with
  | nil =>
    intro r hr
    cases hr
  | @snoc tr db db' q run step ih =>
    intro r' hr' a' ha'
    have hold : ∀ r ∈ db.runs, r'.id = r.id → (∃ a ∈ r.artifacts, a'.content = a.content) →
        ∃ st ∈ tr ++ [⟨db, q, db'⟩], Commits s st r'.id a' := by
      rintro r hr hid ⟨a, ha, hsame⟩
      obtain ⟨st, hst, owner, items, hcall, hreply, hrun, hjob, item, hitem, hcontent⟩ :=
        ih r hr a ha
      refine ⟨st, List.mem_append_left _ hst, owner, items, hcall, hreply, hid ▸ hrun, ?_,
        item, hitem, hsame.trans hcontent⟩
      exact hjob.trans (congrArg Artifact.producerJob hsame).symm
    cases hreply : (db.serve s q).2 with
    | error e =>
      obtain rfl := step.of_error hreply
      exact hold r' hr' rfl ⟨a', ha', rfl⟩
    | ok x =>
      rcases step.run_origin hr' with ⟨input, snapshot, -, -, rfl⟩ | ⟨r, hr, hstep⟩
      · cases ha'
      · rcases hstep with rfl | hchange | ⟨-, -, -, rfl⟩
        · exact hold _ hr rfl ⟨a', ha', rfl⟩
        · have hid := hchange.static.id
          rcases hchange.row_origin ha' with
            hrow | ⟨owner, items, hcall, hrun, item, hitem, hcontent⟩
          · exact hold r hr hid hrow
          · have hexec := Database.serve_ok hreply
            rw [hcall] at hexec
            obtain rfl := (map_done hexec).2
            refine ⟨⟨db, q, db'⟩, by simp, owner, items, hcall, hreply, hrun.trans hid.symm,
              ?_, item, hitem, hcontent⟩
            exact (congrArg Artifact.producerJob hcontent).symm
        · exact hold r hr rfl ⟨a', ha', rfl⟩

/-- The jobs a leased job needs have passed. -/
theorem Run.Scheduled.need_passed (h : r.Scheduled) (hbuilt : r.Built cfg) (hj : j ∈ r.jobs)
    (hrunning : j.status = .running) (hjob : cfg.job? j.name = some job)
    (hneed : producer ∈ job.needs) : ∃ u ∈ r.jobs, u.name = producer ∧ u.status = .passed := by
  have hready := h.leased_ready j hj (h.running_leased j hj hrunning)
  have hdep : ⟨j.name, producer⟩ ∈ r.dependencies := (hbuilt.dependencies _ _).2 ⟨job, hjob, hneed⟩
  exact hbuilt.ready_iff.1 hready producer (Run.mem_needs.2 hdep)

/-- **A declared download is found.** -/
theorem Run.artifactForLease_declared (hsched : r.Scheduled) (hpub : r.Published)
    (hcon : r.Constraints) (hbuilt : r.Built cfg) (hj : j ∈ r.jobs) (hname : j.name = owner.jobName)
    (hholds : j.holdsLease owner now = true) (hjob : cfg.job? j.name = some job)
    {item : Config.ArtifactDownload} (hitem : item ∈ job.artifacts.download) :
    ∃ a ∈ r.artifacts, r.artifactForLease owner item.fromJob item.name now = some a ∧
      a.deletedAt = none ∧ a.producerJob = item.fromJob ∧ a.name = item.name ∧
      ∃ producer upload, cfg.job? item.fromJob = some producer ∧
        upload ∈ producer.artifacts.upload ∧ upload.name = item.name ∧
        a.rootName = base upload.path := by
  have hrunning := Job.holdsLease_running hholds
  have hactive := hsched.running hj hrunning
  obtain ⟨hneed, producer, upload, hproducer, hupload, huploadname⟩ :=
    (Config.accepted_of_validate hbuilt.accepted).download_declared hjob hitem
  obtain ⟨u, hu, huname, hupassed⟩ := hsched.need_passed hbuilt hj hrunning hjob hneed
  obtain ⟨producer', hproducer', hcomplete⟩ := hpub.passed cfg hbuilt.yaml u hu hupassed
  rw [huname] at hproducer' hcomplete
  obtain rfl : producer' = producer := Option.some.inj (hproducer'.symm.trans hproducer)
  have hdeclared : (upload.name, base upload.path) ∈ declared producer' :=
    List.mem_map.2 ⟨upload, hupload, rfl⟩
  obtain ⟨a, ha, hpair⟩ := List.mem_map.1 (hcomplete.mem_iff.2 hdeclared)
  obtain ⟨haname, haroot⟩ := Prod.mk.inj hpair
  obtain ⟨hmem, haproducer⟩ := List.mem_filter.1 ha
  have haproducer : a.producerJob = item.fromJob := by simpa using haproducer
  have hlive := hpub.live hcon (by rw [hactive]; rfl) hmem
  have hdep : ⟨owner.jobName, item.fromJob⟩ ∈ r.dependencies :=
    (hbuilt.dependencies _ _).2 ⟨job, hname ▸ hjob, hneed⟩
  -- the conditions of the query hold of this row, and its key makes it the only one
  have hfound : (r.artifactForLease owner item.fromJob item.name now).isSome = true := by
    refine List.find?_isSome.2 ⟨a, hmem, ?_⟩
    simp only [haproducer, haname, huploadname, hlive, hactive, decide_true, Option.isNone_none,
      Bool.true_and, Bool.and_eq_true, List.any_eq_true, decide_eq_true_eq]
    exact ⟨⟨⟨j, hj, hname, hholds⟩, u, hu, huname, hupassed⟩, _, hdep, rfl, rfl⟩
  obtain ⟨b, hb⟩ := Option.isSome_iff_exists.1 hfound
  have hsel := List.find?_some hb
  simp only [Bool.and_eq_true, decide_eq_true_eq] at hsel
  have hbmem := List.mem_of_find?_eq_some hb
  obtain rfl : b = a := by
    refine List.inj_on_of_nodup_map hcon.artifacts_key hbmem hmem ?_
    rw [hsel.1.1.1.1.1.1, hsel.1.1.1.1.1.2, haproducer, haname, huploadname]
  grind

/-- **Nothing of a job that is not needed is found.** -/
theorem Run.artifactForLease_foreign (now : Time) (name : String) (hbuilt : r.Built cfg)
    (hjob : cfg.job? owner.jobName = some job) (hforeign : producer ∉ job.needs) :
    r.artifactForLease owner producer name now = none := by
  refine List.find?_eq_none.2 fun a _ hsel => hforeign ?_
  simp only [Bool.and_eq_true, decide_eq_true_eq, List.any_eq_true] at hsel
  obtain ⟨⟨⟨⟨⟨⟨haproducer, -⟩, -⟩, -⟩, -⟩, -⟩, d, hd, hdjob, hdon⟩ := hsel
  obtain ⟨job', hjob', hneed⟩ := (hbuilt.dependencies d.jobName d.dependsOn).1 hd
  grind

/-- **Every declared download resolves.**  In every reachable state, whoever holds
the unexpired lease of a running job gets each artifact the job declares to
download: a row that is not deleted, committed by the named producer in the same
run, with the base name of the declared path.  Nothing is found of a job it does not
need. -/
theorem downloads_resolve (h : Reaches s tr db) (hok : ∀ st ∈ tr, st.act.Accepted)
    (hr : r ∈ db.runs) (hid : r.id = owner.runID) (hj : j ∈ r.jobs)
    (hname : j.name = owner.jobName) (hholds : j.holdsLease owner now = true) :
    ∃ cfg job, r.pipelineYAML = some cfg ∧ cfg.job? j.name = some job ∧
      (∀ item ∈ job.artifacts.download, ∃ a,
        getArtifactForLease now owner item.fromJob item.name db.toRows = .ok a ∧
          a ∈ r.artifacts ∧ a.deletedAt = none ∧ a.producerJob = item.fromJob ∧
          a.name = item.name ∧ (∃ st ∈ tr, Commits s st r.id a) ∧
          ∃ producer upload, cfg.job? item.fromJob = some producer ∧
            upload ∈ producer.artifacts.upload ∧ upload.name = item.name ∧
            a.rootName = base upload.path) ∧
      ∀ producer name, producer ∉ job.needs →
        getArtifactForLease now owner producer name db.toRows = .error .notFound := by
  obtain ⟨hsched, hpub⟩ := h.published hok r hr
  obtain ⟨cfg, hbuilt⟩ := hsched.built
  obtain ⟨-, job, hjob⟩ := hbuilt.parse hj
  have hrun : db.run? owner.runID = some r :=
    (Table.row?_eq_some_iff db.valid.runs_key).2 ⟨hr, hid⟩
  refine ⟨cfg, job, hbuilt.yaml, hjob, fun item hitem => ?_, fun producer name hforeign => ?_⟩
  · obtain ⟨a, ha, hfound, hlive, hproducer, haname, hdeclared⟩ :=
      Run.artifactForLease_declared hsched hpub (db.valid.runs r hr) hbuilt hj hname hholds hjob
        hitem
    refine ⟨a, ?_, ha, hlive, hproducer, haname, h.committed r hr a ha, hdeclared⟩
    simp only [getArtifactForLease, hrun, Option.bind_some, hfound]
  · have hnone := Run.artifactForLease_foreign now name hbuilt (hname ▸ hjob) hforeign
    simp only [getArtifactForLease, hrun, Option.bind_some, hnone]

/-- The owner of the lease of the second job of the sample. -/
def Sample.successor : Ownership :=
  { Sample.owner with leaseID := some 101, jobName := "test" }

/-- The second job of the sample finds what the first has published. -/
theorem handover_download_resolves : ∃ a, getArtifactForLease 8 Sample.successor "build" "dist"
      (Database.empty.after Sample.settings Sample.handover).toRows = .ok a := by
  have hleased : ((Database.empty.after Sample.settings Sample.handover).runs.any fun r =>
      r.id = 1 && r.pipelineYAML = some Sample.chain && r.jobs.any fun j => j.name = "test" &&
        j.holdsLease Sample.successor 8) = true := by decide +kernel
  obtain ⟨r, hr, hleased⟩ := List.any_eq_true.1 hleased
  simp only [Bool.and_eq_true, decide_eq_true_eq, List.any_eq_true] at hleased
  obtain ⟨⟨hid, hyaml⟩, j, hj, hname, hholds⟩ := hleased
  obtain ⟨cfg, job, hcfg, hjob, hfound, -⟩ := downloads_resolve
    (Database.record_trace Sample.settings .empty Sample.handover)
    (fun _ hst => Sample.handover_accepted _ (Database.act_mem_of_record hst)) hr hid hj hname
    hholds
  obtain rfl : Sample.chain = cfg := Option.some.inj (hyaml.symm.trans hcfg)
  obtain rfl : Sample.consumer = job := by
    rw [hname] at hjob
    exact Option.some.inj hjob
  obtain ⟨a, ha, -⟩ := hfound ⟨"build", "dist", "in"⟩ (by decide)
  exact ⟨a, ha⟩

end Postgres
