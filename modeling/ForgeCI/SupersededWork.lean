import ForgeCI.DeliveryRuns
import ForgeCI.LeaseEvents

/-!
# Superseded work never comes back

A worker may be anywhere between its claim and `CreateSCMRun` when a newer delivery of the
pull request is recorded.  Supersession clears the claim, so the worker finds no delivery
under its token; a run that exists already is cancelled, or marked, in the same
transaction.
-/

namespace Postgres

open Traces

variable {s : Settings} {now : Time} {t : Rows} {call : Call} {r r' : Run}

/-- The run is over, or asked to cancel. -/
def Run.Halted (r : Run) : Prop :=
  r.status.terminal = true ∨ (r.status = .running ∧ r.cancelRequestedAt.isSome = true)

theorem Run.supersede_halted (h : r.status.terminal = false) : (r.supersede now).Halted := by
  cases hstatus : r.status <;> simp_all [supersede, Halted, RunStatus.terminal]

theorem Run.Halted.step (h : r.Halted) (hstep : RunStep s now t call r r') : r'.Halted := by
  rcases h with hterm | ⟨hrunning, hmarked⟩
  · rcases hstep with rfl | hchange | ⟨input, -, hsuperseded, -⟩
    · exact .inl hterm
    · exact .inl (by rw [hchange.terminal hterm]; exact hterm)
    · grind [Rows.superseded_iff]
  · have hmarked' := hstep.canceled hmarked
    rcases hstep with rfl | hchange | ⟨input, -, hsuperseded, rfl⟩
    · exact .inr ⟨hrunning, hmarked⟩
    · rcases hchange.status with hsame | hrunning' | hterm
      · exact .inr ⟨hsame.trans hrunning, hmarked'⟩
      · exact .inr ⟨hrunning', hmarked'⟩
      · exact .inl hterm
    · exact Run.supersede_halted (Rows.superseded_iff.1 hsuperseded).1

/-- **A run that is over or asked to cancel stays so.** -/
theorem Run.Halted.trace {db db' : Database} {tr : List (Step Database Request)}
    (h : Trace (Served s) db tr db') (hr : r ∈ db.runs) (hhalted : r.Halted) :
    ∃ r' ∈ db'.runs, r'.id = r.id ∧ r'.Halted :=
  Served.run_persists (fun _ _ _ _ _ hstep hhalted => hhalted.step hstep) h hr hhalted

end Postgres

namespace ScmWorker

open Postgres Scm Traces

variable {cfg : Nat → Config} {s : Settings} {sys sys' : System} {act : Action}
variable {tr pre post : List (Step System Action)} {st : Step System Action}
variable {d input : Delivery} {g : RunTrigger}

/-- The step records a new pull-request delivery that supersedes earlier work. -/
structure Supersedes (st : Step System Action) (input : Delivery) : Prop where
  webhook : ∃ hook id enabled, st.act = .webhook hook id enabled ∧
    githubWebhook hook id st.before.clock enabled st.before.db.toRows = .ok input
  supersedes : input.supersedes = true
  recorded : st.after.db ≠ st.before.db

/-- A settled delivery is left alone, unless a `FAILED` one is superseded. -/
theorem step_settled (h : step cfg s sys act = some sys') (hd : d ∈ sys.db.deliveries)
    (hsettled : d.settled = true) :
    d ∈ sys'.db.deliveries ∨ (d.status = .failed ∧ d.ignore sys.clock ∈ sys'.db.deliveries ∧
      ∃ input, Supersedes ⟨sys, act, sys'⟩ input ∧ input.overtakes d = true) := by
  by_cases hsame : sys'.db = sys.db
  · exact .inl (by rwa [hsame])
  obtain ⟨d', hd', rfl | ⟨call, hmakes, hstep⟩⟩ := step_delivery_after h hd
  · exact .inl hd'
  rcases hstep.settled hsettled with
    rfl | ⟨hfailed, rfl, input, rfl, hsupersedes, hovertakes⟩
  · exact .inl hd'
  · cases hmakes with
    | @webhook hook id enabled _ hook_ok =>
      exact .inr ⟨hfailed, hd', input, ⟨⟨hook, id, enabled, rfl, hook_ok⟩, hsupersedes, hsame⟩,
        hovertakes⟩
    | other elsewhere => cases elsewhere

/-- `IGNORED` or `PROCESSED`. -/
def Ended (d : Delivery) : Prop :=
  d.status = .ignored ∨ d.status = .processed

theorem step_ended (h : step cfg s sys act = some sys') (hd : d ∈ sys.db.deliveries)
    (hended : Ended d) : d ∈ sys'.db.deliveries := by
  have hsettled : d.settled = true := by
    rcases hended with hstatus | hstatus <;> simp [Delivery.settled, hstatus]
  rcases step_settled h hd hsettled with hsame | ⟨hfailed, -⟩
  · exact hsame
  · rcases hended with hstatus | hstatus <;> rw [hstatus] at hfailed <;> cases hfailed

/-- A new trigger is for a delivery that is being processed. -/
theorem step_new_trigger (h : step cfg s sys act = some sys') (hg : g ∈ sys'.db.triggers) :
    g ∈ sys.db.triggers ∨
      ∃ d ∈ sys.db.deliveries, d.id = g.deliveryID ∧ d.status = .processing := by
  rcases step_served h with hsame | ⟨call, hmakes, hserved⟩
  · exact .inl (by rwa [← hsame])
  rcases hserved.triggers_cases with hsame | ⟨token, input, trigger, hcall, hadd⟩
  · exact .inl (by rwa [← hsame])
  rw [hadd, List.mem_append, List.mem_singleton] at hg
  rcases hg with hg | rfl
  · exact .inl hg
  · rcases hserved.presents (by rw [hcall]; rfl) with hsame | ⟨d, hd, hid, hclaim⟩
    · rw [hsame] at hadd
      simp at hadd
    · exact .inr ⟨d, hd, hid, (Delivery.claimedWith_iff.1 hclaim).1⟩

/-- **No run is created for a delivery that has ended.** -/
theorem Runs.no_new_trigger (h : Runs cfg s sys tr sys') (hd : d ∈ sys.db.deliveries)
    (hended : Ended d) (hg : g ∈ sys'.db.triggers) (hid : g.deliveryID = d.id) :
    g ∈ sys.db.triggers := by
  refine (h.final_invariant (fun sys₁ => d ∈ sys₁.db.deliveries ∧
    ∀ g ∈ sys₁.db.triggers, g.deliveryID = d.id → g ∈ sys.db.triggers) ⟨hd, fun g hg _ => hg⟩
    ?_).2 g hg hid
  rintro sys₁ act sys₂ ⟨hd₁, hold⟩ hstep
  refine ⟨step_ended hstep hd₁ hended, ?_⟩
  intro g hg hid
  rcases step_new_trigger hstep hg with hg | ⟨d', hd', hid', hprocessing⟩
  · exact hold g hg hid
  · obtain rfl := List.inj_on_of_nodup_map sys₁.db.valid.deliveries_key hd' hd₁ (hid'.trans hid)
    rcases hended with hstatus | hstatus <;> rw [hstatus] at hprocessing <;> cases hprocessing

/-- The delivery is of the pull request, for another commit or for any when the pull
request is closed. -/
def Outdates (input d : Delivery) : Prop :=
  d.repositoryID = input.repositoryID ∧ d.eventType = "pull_request" ∧
    d.pullRequestNumber = input.pullRequestNumber ∧
    (input.action = "closed" ∨ d.commitSHA ≠ some input.commit)

theorem Supersedes.rows (h : Supersedes st input)
    (hstep : step cfg s st.before st.act = some st.after) :
    st.after.db.triggers = st.before.db.triggers ∧
      st.after.db.runs = Table.updateWhere (st.before.db.superseded input)
        (Run.supersede st.before.clock) st.before.db.runs ∧
      st.after.db.deliveries = Table.updateWhere input.overtakes
        (Delivery.ignore st.before.clock) (st.before.db.deliveries ++ [input.inserted]) := by
  obtain ⟨hook, id, enabled, hact, hhook⟩ := h.webhook
  rw [hact] at hstep
  simp only [step, hhook] at hstep
  have hafter := Option.some.inj hstep
  have hserved := System.serve_served s (.createSCMDelivery input) st.before
  grind [hserved.superseding, h.supersedes, h.recorded]

/-- A delivery that is overtaken is ignored. -/
theorem Supersedes.ignored (h : Supersedes st input)
    (hstep : step cfg s st.before st.act = some st.after) (hd : d ∈ st.before.db.deliveries)
    (hovertakes : input.overtakes d = true) :
    d.ignore st.before.clock ∈ st.after.db.deliveries := by
  rw [(h.rows hstep).2.2]
  exact Table.mem_updateWhere.2 ⟨d, List.mem_append_left _ hd, if_pos hovertakes⟩

/-- An outdated delivery has ended afterwards. -/
theorem Supersedes.ended (h : Supersedes st input)
    (hstep : step cfg s st.before st.act = some st.after) (hd : d ∈ st.before.db.deliveries)
    (houtdates : Outdates input d) : ∃ d' ∈ st.after.db.deliveries, d'.id = d.id ∧ Ended d' := by
  by_cases hovertakes : input.overtakes d = true
  · exact ⟨_, h.ignored hstep hd hovertakes, rfl, .inl rfl⟩
  · have hrows := (h.rows hstep).2.2
    have hne : d.id ≠ input.id := by
      have hkey := st.after.db.valid.deliveries_key
      have hids := Table.map_updateWhere (l := st.before.db.deliveries ++ [input.inserted])
        (p := input.overtakes) (f := Delivery.ignore st.before.clock) (g := Delivery.id)
        fun _ _ => rfl
      rw [hrows, hids, List.map_append, List.nodup_append] at hkey
      exact hkey.2.2 _ (List.mem_map_of_mem hd) _ (List.mem_singleton.2 rfl)
    refine ⟨d, ?_, rfl, ?_⟩
    · grind [Table.mem_updateWhere]
    · rw [Delivery.overtakes_iff] at hovertakes
      obtain ⟨hrepository, hevent, hnumber, hcommit⟩ := houtdates
      cases hstatus : d.status <;> simp_all [Ended]

/-- The run of an outdated delivery is over or marked, in the same transaction. -/
theorem Supersedes.halted (h : Supersedes st input)
    (hstep : step cfg s st.before st.act = some st.after) (hsys : st.before.Sound)
    (hd : d ∈ st.before.db.deliveries) (houtdates : Outdates input d)
    (hg : g ∈ st.after.db.triggers) (hid : g.deliveryID = d.id) :
    ∃ r ∈ st.after.db.runs, r.id = g.runID ∧ r.Halted := by
  obtain ⟨htriggers, hruns, -⟩ := h.rows hstep
  rw [htriggers] at hg
  obtain ⟨-, hrepository, hnumber, hcommit⟩ := hsys.agrees hg hd hid
  obtain ⟨hrepository', -, hnumber', hcommit'⟩ := houtdates
  obtain ⟨r, hr, hrid⟩ := List.mem_map.1 (st.before.db.valid.triggers_references g hg).2.2
  rw [hruns]
  by_cases hterm : r.status.terminal = true
  · have hkept : ¬ st.before.db.superseded input r = true := by
      rw [Rows.superseded_iff, hterm]
      simp
    exact ⟨r, Table.mem_updateWhere.2 ⟨r, hr, if_neg hkept⟩, hrid, .inl hterm⟩
  · have hactive : r.status.terminal = false := by simpa using hterm
    have hsuperseded : st.before.db.superseded input r = true := by
      refine Rows.superseded_iff.2 ⟨hactive, g, hg, hrid.symm, hrepository.trans hrepository',
        hnumber.trans hnumber', hcommit'.imp_right fun hne heq => hne ?_⟩
      rw [hcommit, heq]
    exact ⟨_, Table.mem_updateWhere.2 ⟨r, hr, if_pos hsuperseded⟩, hrid,
      Run.supersede_halted hactive⟩

/-- Superseded work over a run `tr` of the system that ends in `sys`. -/
structure SupersededForGood (cfg : Nat → Config) (s : Settings)
    (tr : List (Step System Action)) (sys : System) : Prop where
  /-- A step leaves a settled delivery alone, or supersedes a `FAILED` one. -/
  settled_step : ∀ st ∈ tr, ∀ d ∈ st.before.db.deliveries, d.settled = true →
    d ∈ st.after.db.deliveries ∨ (d.status = .failed ∧ d.ignore st.before.clock ∈
      st.after.db.deliveries ∧ ∃ input, Supersedes st input ∧ input.overtakes d = true)
  /-- A settled delivery stays as it is, or a `FAILED` one is `IGNORED` in the end. -/
  settled : ∀ pre post sys₁ d, tr = pre ++ post → Reaches cfg s pre sys₁ →
    d ∈ sys₁.db.deliveries → d.settled = true →
    d ∈ sys.db.deliveries ∨ (d.status = .failed ∧
      ∃ d' ∈ sys.db.deliveries, d'.id = d.id ∧ d'.status = .ignored)
  /-- A superseded delivery has no trigger and never gets one, or its run is over or
  marked in the same transaction. -/
  superseded : ∀ pre st post input d, tr = pre ++ st :: post → Supersedes st input →
    d ∈ st.before.db.deliveries → input.overtakes d = true →
    d.ignore st.before.clock ∈ st.after.db.deliveries ∧
      (((∀ g ∈ st.after.db.triggers, g.deliveryID ≠ d.id) ∧
          ∀ g ∈ sys.db.triggers, g.deliveryID ≠ d.id) ∨
        ∃ g ∈ st.after.db.triggers, g.deliveryID = d.id ∧
          ∃ r ∈ st.after.db.runs, r.id = g.runID ∧ r.Halted)
  /-- No run of an outdated delivery is `QUEUED`, or `RUNNING` and not marked. -/
  outdated : ∀ pre st post input d, tr = pre ++ st :: post → Supersedes st input →
    d ∈ st.before.db.deliveries → Outdates input d →
    ∀ g ∈ sys.db.triggers, g.deliveryID = d.id →
      ∃ r ∈ sys.db.runs, r.id = g.runID ∧ r.Halted

/-- **Superseded work never comes back**, in any run of the system. -/
theorem superseded_for_good (h : Reaches cfg s tr sys) : SupersededForGood cfg s tr sys where
  settled_step := by
    intro st hst d hd hsettled
    obtain ⟨pre, -, hstep⟩ := h.step_of_mem hst
    exact step_settled hstep hd hsettled
  settled := by
    rintro pre post sys₁ d rfl hpre hd hsettled
    refine (h.rest hpre).final_invariant (fun sys => d ∈ sys.db.deliveries ∨
      (d.status = .failed ∧ ∃ d' ∈ sys.db.deliveries, d'.id = d.id ∧ d'.status = .ignored))
      (.inl hd) ?_
    rintro sys₂ act sys₃ (hd₂ | ⟨hfailed, d', hd', hid, hignored⟩) hstep
    · rcases step_settled hstep hd₂ hsettled with hsame | ⟨hfailed, hignored, -⟩
      · exact .inl hsame
      · exact .inr ⟨hfailed, _, hignored, rfl, rfl⟩
    · exact .inr ⟨hfailed, d', step_ended hstep hd' (.inl hignored), hid, hignored⟩
  superseded := by
    rintro pre st post input d rfl hsup hd hovertakes
    obtain ⟨hpre, hstep, hpost⟩ := h.split
    have hignored := hsup.ignored hstep hd hovertakes
    have houtdates : Outdates input d := by
      obtain ⟨hrepository, hevent, hnumber, -, -, hcommit⟩ := Delivery.overtakes_iff.1 hovertakes
      exact ⟨hrepository, hevent, hnumber, hcommit⟩
    refine ⟨hignored, ?_⟩
    by_cases htrigger : ∃ g ∈ st.after.db.triggers, g.deliveryID = d.id
    · obtain ⟨g, hg, hid⟩ := htrigger
      exact .inr ⟨g, hg, hid, hsup.halted hstep (Reaches.sound hpre) hd houtdates hg hid⟩
    · have hnone : ∀ g ∈ st.after.db.triggers, g.deliveryID ≠ d.id :=
        fun g hg hid => htrigger ⟨g, hg, hid⟩
      exact .inl ⟨hnone, fun g hg hid =>
        hnone g (Runs.no_new_trigger hpost hignored (.inl rfl) hg hid) hid⟩
  outdated := by
    rintro pre st post input d rfl hsup hd houtdates g hg hid
    obtain ⟨hpre, hstep, hpost⟩ := h.split
    obtain ⟨d', hd', hid', hended⟩ := hsup.ended hstep hd houtdates
    have hold := Runs.no_new_trigger hpost hd' hended hg (hid.trans hid'.symm)
    obtain ⟨r, hr, hrid, hhalted⟩ := hsup.halted hstep (Reaches.sound hpre) hd houtdates hold hid
    obtain ⟨requests, htrace⟩ := Runs.store hpost
    obtain ⟨r', hr', hrid', hhalted'⟩ := Run.Halted.trace htrace hr hhalted
    exact ⟨r', hr', hrid'.trans hrid, hhalted'⟩

namespace Sample

/-- A revision of pull request 7. -/
def revision (deliveryID sha : String) : Webhook where
  eventName := "pull_request"
  deliveryID := deliveryID
  body := some { action := "synchronize", fullName := "acme/site", number := 7, headSHA := sha,
                 headRef := "topic", baseRef := "main" }
  payloadSHA256 := Postgres.Sample.digest

/-- The claim, the preparation and the creation of a run. -/
def processed (w : Nat) (token runID triggerID : Uuid) : List Action :=
  [.work w (.claim token), .work w (.lookup false),
    .work w (.repository false "acme/site" "ci.yml" true),
    .work w (.prepare environment origin runID triggerID), .work w (.create .none)]

/-- The first revision has a run, the second is being claimed when the third comes. -/
def revised : List Action :=
  [.other (.createSCMRepository repository), .webhook (revision "first" sha) 30 true] ++
    processed 0 100 40 50 ++
    [.webhook (revision "second" (String.ofList (List.replicate 40 'b'))) 31 true,
      .work 1 (.claim 101),
      .webhook (revision "third" (String.ofList (List.replicate 40 'c'))) 32 true,
      .work 1 (.lookup false)]

end Sample

theorem revised_superseded : ∃ tr sys,
    Reaches (fun _ => Sample.config) Postgres.Sample.settings tr sys ∧
      SupersededForGood (fun _ => Sample.config) Postgres.Sample.settings tr sys ∧
      sys.db.deliveries.map (fun d => (d.id, d.status)) =
        [(30, .ignored), (31, .ignored), (32, .pending)] ∧
      sys.db.runs.map (fun r => (r.id, r.status)) = [(40, .canceled)] := by
  have hrun : (Sample.revised.foldlM (step (fun _ => Sample.config) Postgres.Sample.settings)
      {}).map (fun sys => (sys.db.deliveries.map (fun d => (d.id, d.status)),
        sys.db.runs.map (fun r => (r.id, r.status)))) =
      some ([(30, .ignored), (31, .ignored), (32, .pending)], [(40, .canceled)]) := by
    decide +kernel
  obtain ⟨tr, sys, htr, -, hstate⟩ := Trace.of_foldlM_map hrun
  obtain ⟨hdeliveries, hruns⟩ := Prod.mk.inj hstate
  exact ⟨tr, sys, htr, superseded_for_good htr, hdeliveries, hruns⟩

end ScmWorker
